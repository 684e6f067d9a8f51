import AccessRules.Proofs.Audit.Names
import AccessRules.Proofs.Decision.Polarity

/-! What expressions can tell of grants.

Every query is put by some call: the one whose parameters are what is asked about, in quotes
(`Query.call`), whatever stands in it. So expressions tell apart any two contexts that answer
one query differently (`context_ext`), and the same was granted exactly if no expression tells
the difference. What is granted depends on the facts that the acts give, not on their order or
number, and a fact is given only by an act of its own kind, with the same texts in the same
places (`same_iff_granted`). -/
namespace AccessRules

/-! ### A call for every query -/

/-- A parameter with this content: the text in single quotes. -/
def quoted (x : Text) : Text := (Lexeme.literal '\'' x).text

theorem unquote_quoted (x : Text) : unquote (quoted x) = x := unquote_literal rfl x

namespace Query

/-- The call that puts the query. -/
def call (q : Query) : Expr := .call q.check (q.args.map quoted)

theorem query?_quoted (q : Query) : q.check.query? (q.args.map quoted) = some q := by
  cases q <;> simp only [check, args, List.map_cons, Check.query?, unquote_quoted]

/-- **The call is granted if the context says yes to the query**, be it about texts with quotes
and blanks in them, or about none. -/
theorem granted_call_self (ctx : Context) (q : Query) : granted ctx q.call = ctx q := by
  rw [call, granted_call, query?_quoted, Option.any_some]

end Query

/-- **Contexts that no expression tells apart answer every query alike.** -/
theorem context_ext {ctx ctx' : Context} (h : ∀ e, granted ctx e = granted ctx' e) :
    ctx = ctx' := by
  funext q
  rw [← q.granted_call_self ctx, h, q.granted_call_self]

/-! ### What was granted -/

/-- The act gives the fact: it names it, alone or among others of the kind. -/
inductive Grant.Gives : Grant → Query → Prop
  | permission (p : Text) : Gives (.permission p) (.permission p)
  | permissions {p : Text} {ps : List Text} (h : p ∈ ps) : Gives (.permissions ps) (.permission p)
  | role (r : Text) : Gives (.role r) (.role r)
  | roles {r : Text} {rs : List Text} (h : r ∈ rs) : Gives (.roles rs) (.role r)
  | resource (r a : Text) : Gives (.resource r a) (.resource r a)
  | conditional (p k v : Text) : Gives (.conditional p k v) (.conditional p k v)

theorem Grant.mem_facts {act : Grant} {q : Query} : q ∈ act.facts ↔ act.Gives q := by
  constructor
  · intro h
    cases act with
    | permissions ps =>
      obtain ⟨p, hp, rfl⟩ := List.mem_map.mp h
      exact .permissions hp
    | roles rs =>
      obtain ⟨r, hr, rfl⟩ := List.mem_map.mp h
      exact .roles hr
    | _ =>
      cases List.mem_singleton.mp h
      constructor
  · intro h
    cases h with
    | permissions h | roles h => exact List.mem_map_of_mem h
    | _ => exact List.mem_singleton_self _

namespace Grants

/-- What is granted is what some act gives. -/
theorem allows_of {acts : List Grant} {q : Query} :
    (of acts).allows q = true ↔ ∃ act ∈ acts, act.Gives q := by
  rw [allows_eq_true, of, facts_foldl, empty, List.nil_append, List.mem_flatMap]
  simp only [Grant.mem_facts]

/-- The same was granted if every query is answered alike. -/
theorem same_eq_true {g h : Grants} : g.same h = true ↔ g.allows = h.allows := by
  have hsubset (a b : Grants) :
      a.facts.all (b.facts.contains ·) = true ↔ ∀ q, a.allows q = true → b.allows q = true := by
    simp only [List.all_eq_true, allows, List.contains_iff_mem]
  rw [same, Bool.and_eq_true, hsubset, hsubset]
  constructor
  · rintro ⟨hgh, hhg⟩
    funext q
    exact Bool.eq_iff_iff.mpr ⟨hgh q, hhg q⟩
  · intro heq
    rw [heq]
    exact ⟨fun _ hq => hq, fun _ hq => hq⟩

/-- **The same was granted exactly if no expression tells the difference.** Neither the order of
the acts nor their repetition makes one, and what is granted is what the acts give: nothing
passes from one kind of facts to another, or from one place in a fact to another. -/
theorem same_iff_granted (acts acts' : List Grant) :
    ((of acts).same (of acts') = true ↔
      ∀ e, granted (of acts).allows e = granted (of acts').allows e) ∧
    ((∀ act, act ∈ acts ↔ act ∈ acts') → (of acts).same (of acts') = true) ∧
    ∀ q, (of acts).allows q = true ↔ ∃ act ∈ acts, act.Gives q := by
  refine ⟨?_, fun hacts => ?_, fun q => allows_of⟩
  · rw [same_eq_true]
    exact ⟨fun heq e => by rw [heq], context_ext⟩
  · rw [same_eq_true]
    funext q
    rw [Bool.eq_iff_iff, allows_of, allows_of]
    simp only [hacts]

theorem same_iff_granted_reordered :
    let acts := [Grant.role "' A'".toList, .permissions [[], "p\"".toList],
      .resource "doc".toList [], .role "' A'".toList]
    let acts' := [Grant.permissions [[], "p\"".toList], .role "' A'".toList,
      .resource "doc".toList []]
    (∀ act, act ∈ acts ↔ act ∈ acts') ∧ (of acts).same (of acts') = true := by
  intro acts acts'
  have hacts : ∀ act, act ∈ acts ↔ act ∈ acts' := by
    intro act
    simp only [acts, acts', List.mem_cons, List.not_mem_nil]
    tauto
  exact ⟨hacts, (same_iff_granted acts acts').2.1 hacts⟩

/-- The places of a resource and an action in a grant count. -/
example : (of [.resource "doc".toList "read".toList]).same
    (of [.resource "read".toList "doc".toList]) = false := by decide

end Grants
end AccessRules
