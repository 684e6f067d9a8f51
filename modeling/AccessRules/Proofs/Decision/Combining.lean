import AccessRules.Proofs.Decision.Settled

/-! How the decision on an expression is put together from those on its operands.

`negate`, `both` and `either` are what the operators do with the decisions on their
operands (`evaluate_and`, `evaluate_or`, `evaluate_not`). They obey those laws of Boolean
algebra that keep the operands in order and drop none of them: regrouping (`both_assoc`,
`either_assoc`), De Morgan's laws (`negate_both`, `negate_either`) and double negation
(`negate_negate`). Each of them holds for the answer, the queries and the log together,
since the second operand is left out on both sides for the same answers to the first. -/
namespace AccessRules

/-! ### Logged decisions -/

namespace Logged

/-- The opposite answer, after the same queries and entries. -/
def negate (d : Logged Decision) : Logged Decision := ⟨d.value.negate, d.log⟩

/-- The later decision, after the queries and entries of both. -/
def followedBy (d later : Logged Decision) : Logged Decision :=
  ⟨d.value.followedBy later.value, d.log ++ later.log⟩

/-- What `and` decides: the second operand counts only when the first is granted. -/
def both (l r : Logged Decision) : Logged Decision :=
  if l.value.granted then l.followedBy r else l

/-- What `or` decides: the second operand counts only when the first is denied. -/
def either (l r : Logged Decision) : Logged Decision :=
  if l.value.granted then l else l.followedBy r

section Laws
variable (l r d : Logged Decision)

theorem negate_negate : d.negate.negate = d := by
  show (⟨⟨!!d.value.granted, d.value.queries⟩, d.log⟩ : Logged Decision) = d
  rw [Bool.not_not]

theorem followedBy_assoc : (l.followedBy r).followedBy d = l.followedBy (r.followedBy d) := by
  simp only [followedBy, Decision.followedBy, List.append_assoc]

/-- **Negation turns `both` into `either`.** -/
theorem negate_both : (l.both r).negate = l.negate.either r.negate := by
  cases hl : l.value.granted <;>
    simp [both, either, negate, followedBy, Decision.negate, Decision.followedBy, hl]

theorem negate_either : (l.either r).negate = l.negate.both r.negate := by
  have h := negate_both l.negate r.negate
  rw [negate_negate, negate_negate] at h
  rw [← h, negate_negate]

/-- **The grouping of `both` makes no difference.** -/
theorem both_assoc : (l.both r).both d = l.both (r.both d) := by
  cases hl : l.value.granted with
  | false =>
    -- Neither grouping comes to look at the other two operands.
    have hfirst (x : Logged Decision) : l.both x = l := by simp [both, hl]
    rw [hfirst, hfirst, hfirst]
  | true =>
    have hfirst (x : Logged Decision) : l.both x = l.followedBy x := by simp [both, hl]
    rw [hfirst, hfirst]
    show (if r.value.granted then (l.followedBy r).followedBy d else l.followedBy r) = _
    rw [followedBy_assoc, both, apply_ite l.followedBy]

theorem either_assoc : (l.either r).either d = l.either (r.either d) := by
  have h := both_assoc l.negate r.negate d.negate
  rw [← negate_either, ← negate_either, ← negate_either, ← negate_either] at h
  rw [← negate_negate ((l.either r).either d), h, negate_negate]

end Laws

section Congruence
variable {l l' r r' : Logged Decision}

/-- The second operand matters only when it is looked at. -/
theorem both_congr (hl : l = l') (hr : l.value.granted = true → r = r') :
    l.both r = l'.both r' := by
  subst hl
  by_cases hgranted : l.value.granted = true
  · rw [hr hgranted]
  · rw [both, both, if_neg hgranted, if_neg hgranted]

theorem either_congr (hl : l = l') (hr : l.value.granted = false → r = r') :
    l.either r = l'.either r' := by
  subst hl
  by_cases hgranted : l.value.granted = true
  · rw [either, either, if_pos hgranted, if_pos hgranted]
  · rw [hr (eq_false_of_ne_true hgranted)]

end Congruence

section Members
variable {l r : Logged Decision} {entry : LogEntry}

theorem mem_log_both (h : entry ∈ (l.both r).log) : entry ∈ l.log ∨ entry ∈ r.log := by
  unfold both at h
  split at h
  · exact List.mem_append.mp h
  · exact .inl h

theorem mem_log_either (h : entry ∈ (l.either r).log) : entry ∈ l.log ∨ entry ∈ r.log := by
  unfold either at h
  split at h
  · exact .inl h
  · exact List.mem_append.mp h

end Members
end Logged

/-! ### Expressions -/

section Operators
variable (ctx : Context) (l r : Expr)

theorem evaluate_and : evaluate ctx (.op .and l r) = (evaluate ctx l).both (evaluate ctx r) := by
  simp only [evaluate, bind, pure, Logged.both]
  split
  · simp only [List.append_nil]
    rfl
  · simp only [List.append_nil]

theorem evaluate_or : evaluate ctx (.op .or l r) = (evaluate ctx l).either (evaluate ctx r) := by
  simp only [evaluate, bind, pure, Logged.either]
  split
  · simp only [List.append_nil]
  · simp only [List.append_nil]
    rfl

theorem evaluate_not {r : Expr} (h : r ≠ .missing) :
    evaluate ctx (.op .not l r) = (evaluate ctx r).negate := by
  rw [evaluate, Logged.negate]
  · simp only [bind, pure, List.append_nil]
  · exact h

theorem queries_and :
    queries ctx (.op .and l r) = queries ctx l ++ if granted ctx l then queries ctx r else [] := by
  rw [queries, evaluate_and, Logged.both, ← granted]
  split
  · rfl
  · exact (List.append_nil _).symm

theorem queries_or :
    queries ctx (.op .or l r) = queries ctx l ++ if granted ctx l then [] else queries ctx r := by
  rw [queries, evaluate_or, Logged.either, ← granted]
  split
  · exact (List.append_nil _).symm
  · rfl

theorem queries_not {r : Expr} (h : r ≠ .missing) :
    queries ctx (.op .not l r) = queries ctx r := by
  rw [queries, evaluate_not ctx l h]
  rfl

theorem log_and : (evaluate ctx (.op .and l r)).log =
    (evaluate ctx l).log ++ if granted ctx l then (evaluate ctx r).log else [] := by
  rw [evaluate_and, Logged.both, ← granted]
  split
  · rfl
  · exact (List.append_nil _).symm

theorem log_or : (evaluate ctx (.op .or l r)).log =
    (evaluate ctx l).log ++ if granted ctx l then [] else (evaluate ctx r).log := by
  rw [evaluate_or, Logged.either, ← granted]
  split
  · exact (List.append_nil _).symm
  · rfl

theorem log_not {r : Expr} (h : r ≠ .missing) :
    (evaluate ctx (.op .not l r)).log = (evaluate ctx r).log := by
  rw [evaluate_not ctx l h]
  rfl

end Operators

/-- **Alternatives can be grouped either way.** -/
theorem evaluate_or_assoc (ctx : Context) (a b c : Expr) :
    evaluate ctx (.op .or (.op .or a b) c) = evaluate ctx (.op .or a (.op .or b c)) := by
  simp only [evaluate_or, Logged.either_assoc]

end AccessRules
