import AccessRules.Proofs.Cache.Entries

/-! What happens to a cache, and what holds of it all the while.

`history` is what happens while steps are taken: every compiling, when its outcome is known,
and every step, when it has ended, those taken in the meantime of a compiling included. What
dropping and publishing keep (`Kept`) holds whenever a step has ended (`Kept.ended`). So a
cache never has more entries than its capacity (`size_le_capacity`), and all that is found
under a text has been compiled from it before (`compiled_before`). -/
namespace AccessRules.Cache

/-! ### Histories -/

/-- Something that happens: compiling a text has come to an outcome, or a step has ended
with its reply and left the cache behind. -/
inductive Event
  | compiled (text : Text) (outcome : Except ParseError Expr)
  | ended (step : Step) (reply : Reply) (cache : Cache)

/-- Whether the step had to compile its text. -/
def Reply.ran : Reply → Bool
  | .compiled ran _ _ _ => ran
  | _ => false

mutual

/-- What happens before a step ends: the compiling of its text, if it has to be compiled. -/
def Step.compiling : Step → Cache → List Event
  | .fetch text, c =>
    if (c.fetch text).value.compiling.isSome then [.compiled text (parse text)] else []
  | .fetchWith text meanwhile outcome, c =>
    if (step (.fetchWith text meanwhile outcome) c).value.1.ran then
      history meanwhile c ++ [.compiled text (outcome text)]
    else []
  | _, _ => []

/-- What happens while steps are taken in order. -/
def history : List Step → Cache → List Event
  | [], _ => []
  | s :: rest, c =>
    s.compiling c ++ .ended s (step s c).value.1 (step s c).value.2 ::
      history rest (step s c).value.2

end

/-- The reply of a step that has ended. -/
def Event.reply? : Event → Option Reply
  | .compiled _ _ => none
  | .ended _ reply _ => some reply

mutual

/-- The reply, after those to the steps taken in its meantime. -/
def Reply.told : Reply → List Reply
  | .compiled ran meanwhile answer size =>
    told meanwhile ++ [.compiled ran meanwhile answer size]
  | reply => [reply]

/-- The replies in the order they are told, those to the steps taken in the meantime of others
included. -/
def told : List Reply → List Reply
  | [] => []
  | reply :: rest => reply.told ++ told rest

end

mutual

theorem told_step (s : Step) (c : Cache) :
    (s.compiling c).filterMap Event.reply? ++ [(step s c).value.1] = (step s c).value.1.told := by
  match s with
  | .get text | .drop text | .clear | .capacity => rfl
  | .fetch text =>
    have hnone : ((Step.fetch text).compiling c).filterMap Event.reply? = [] := by
      rw [Step.compiling]
      split <;> rfl
    rw [hnone]
    rfl
  | .fetchWith text meanwhile outcome =>
    let l := (c.fetchWith text fun given c => do
      let (replies, c) ← run meanwhile c
      return (replies, outcome given, c)).value
    have hl : l.compiling = if c.get? text = none then some (run meanwhile c).value.1 else none :=
      compiling_fetchWith
    have hmeanwhile : ((Step.fetchWith text meanwhile outcome).compiling c).filterMap Event.reply? =
        told (l.compiling.getD []) := by
      show (if l.compiling.isSome then _ else []).filterMap Event.reply? = _
      rw [hl]
      by_cases hget : c.get? text = none
      · rw [if_pos hget, Option.getD_some, ← told_history meanwhile c]
        exact (List.filterMap_append ..).trans (List.append_nil _)
      · rw [if_neg hget]
        rfl
    exact congrArg (· ++ [(step (.fetchWith text meanwhile outcome) c).value.1]) hmeanwhile

/-- **Histories leave no reply out.** -/
theorem told_history (steps : List Step) (c : Cache) :
    (history steps c).filterMap Event.reply? = told (run steps c).value.1 := by
  match steps with
  | [] => rfl
  | s :: rest =>
    have hs := told_step s c
    have hrest := told_history rest (step s c).value.2
    calc (history (s :: rest) c).filterMap Event.reply?
      _ = (s.compiling c).filterMap Event.reply? ++
          ((step s c).value.1 :: (history rest (step s c).value.2).filterMap Event.reply?) := by
        rw [history, List.filterMap_append]
        rfl
      _ = (step s c).value.1.told ++ told (run rest (step s c).value.2).value.1 := by
        rw [hrest, List.append_cons, hs]
      _ = told (run (s :: rest) c).value.1 := rfl

end

namespace Step

/-- Taken in some cache, the step has this reply and leaves this cache. -/
def Ends (s : Step) (reply : Reply) (c : Cache) : Prop :=
  ∃ start, (step s start).value = (reply, c)

/-- The step asks for a text and is given a tree. -/
def Gives (text : Text) (tree : Expr) : Step → Reply → Prop
  | .get asked, .found found _ => asked = text ∧ found = some tree
  | .fetch asked, .parsed answer _ => asked = text ∧ answer = .ok tree
  | .fetchWith asked _ _, .compiled _ _ answer _ => asked = text ∧ answer = .ok tree
  | _, _ => False

end Step

/-! ### What is kept -/

/-- `I` says of a history and the cache after it what is not lost by anything a step can do:
more happens, entries are dropped, or a tree is published that its text was compiled to. -/
structure Kept (I : List Event → Cache → Prop) : Prop where
  later {past : List Event} {c : Cache} (events : List Event) : I past c → I (past ++ events) c
  erase {past : List Event} {c : Cache} (text : Text) : I past c → I past (c.erase text)
  clear {past : List Event} {c : Cache} : I past c → I past c.clear
  publish {past : List Event} {c : Cache} {text : Text} {tree : Expr} : I past c →
    .compiled text (.ok tree) ∈ past → I past (c.publish text tree).value.2

/-- Whenever one of these steps has ended, `I` holds of what has happened and the cache. -/
def Throughout (I : List Event → Cache → Prop) : (past events : List Event) → Prop
  | _, [] => True
  | past, e :: rest =>
    (∀ s reply c, e = .ended s reply c → s.Ends reply c ∧ I past c) ∧
      Throughout I (past ++ [e]) rest

section Throughout
variable {I : List Event → Cache → Prop}

theorem throughout_append {past a b : List Event} :
    Throughout I past (a ++ b) ↔ Throughout I past a ∧ Throughout I (past ++ a) b := by
  induction a generalizing past with
  | nil => rw [List.nil_append, List.append_nil, Throughout, true_and]
  | cons e a ih => rw [List.cons_append, Throughout, Throughout, ih, ← List.append_cons, and_assoc]

theorem throughout_compiled (past : List Event) (text : Text) (outcome : Except ParseError Expr) :
    Throughout I past [.compiled text outcome] :=
  ⟨nofun, trivial⟩

end Throughout

namespace Kept
variable {I : List Event → Cache → Prop} (hI : Kept I) {past : List Event} {c : Cache}
include hI

/-- A use of the cache keeps what the compiling keeps, `events` being what happens meanwhile. -/
theorem fetchWith {α : Type} {text : Text}
    {compile : Text → Cache → Logged (α × Except ParseError Expr × Cache)} {brought : α}
    {outcome : Except ParseError Expr} {left : Cache} {events : List Event} (h : I past c)
    (hc : (compile text c).value = (brought, outcome, left)) (hevents : Throughout I past events)
    (hleft : I (past ++ events) left) :
    let l := (c.fetchWith text compile).value
    let happened := if l.compiling.isSome then events ++ [.compiled text outcome] else []
    Throughout I past happened ∧ I (past ++ happened) l.cache := by
  intro l happened
  cases hget : c.get? text with
  | some kept =>
    have hl : l = ⟨none, .ok kept, c⟩ := fetchWith_of_some hget
    have hnothing : happened = [] := by simp only [happened, hl, Option.isSome_none]; rfl
    rw [hnothing, hl]
    exact ⟨trivial, hI.later [] h⟩
  | none =>
    have hhappened : happened = events ++ [.compiled text outcome] := by
      simp only [happened, l, compiling_fetchWith, hget, if_true, Option.isSome_some]
    have hpast : I (past ++ happened) left := by
      rw [hhappened, ← List.append_assoc]
      exact hI.later _ hleft
    refine ⟨hhappened ▸ throughout_append.mpr ⟨hevents, throughout_compiled _ text outcome⟩, ?_⟩
    cases outcome with
    | error error =>
      rw [show l = ⟨some brought, .error error, left⟩ from fetchWith_error hget hc]
      exact hpast
    | ok tree =>
      have hcompiled : .compiled text (.ok tree) ∈ past ++ happened := by simp [hhappened]
      rw [show l.cache = (left.publish text tree).value.2 from
        congrArg Lookup.cache (fetchWith_ok hget hc)]
      exact hI.publish hpast hcompiled

end Kept

-- A step can have steps of its own, so what holds of a step and what holds of steps taken in
-- order are proved together.
mutual

theorem Kept.throughout_compiling {I : List Event → Cache → Prop} (hI : Kept I) {past : List Event}
    {c : Cache} (h : I past c) (s : Step) :
    Throughout I past (s.compiling c) ∧ I (past ++ s.compiling c) (step s c).value.2 := by
  match s with
  | .get text => exact ⟨trivial, hI.later [] h⟩
  | .drop text => exact ⟨trivial, hI.later [] (hI.erase text h)⟩
  | .clear => exact ⟨trivial, hI.later [] (hI.clear h)⟩
  | .capacity => exact ⟨trivial, hI.later [] h⟩
  | .fetch text =>
    have hnothing : Throughout I past [] := trivial
    exact hI.fetchWith h (value_reading text c) hnothing (hI.later [] h)
  | .fetchWith text meanwhile outcome =>
    obtain ⟨hevents, hleft⟩ := hI.throughout_history h meanwhile
    exact hI.fetchWith h rfl hevents hleft

/-- **What is kept holds whenever a step has ended**, and after the last of them. -/
theorem Kept.throughout_history {I : List Event → Cache → Prop} (hI : Kept I) {past : List Event}
    {c : Cache} (h : I past c) (steps : List Step) :
    Throughout I past (history steps c) ∧ I (past ++ history steps c) (run steps c).value.2 := by
  match steps with
  | [] => exact ⟨trivial, hI.later [] h⟩
  | s :: rest =>
    let last : Event := .ended s (step s c).value.1 (step s c).value.2
    obtain ⟨hs, hafter⟩ := hI.throughout_compiling h s
    obtain ⟨hrest, hlast⟩ := hI.throughout_history (hI.later [last] hafter) rest
    have hended : ∀ s' reply c', last = .ended s' reply c' →
        s'.Ends reply c' ∧ I (past ++ s.compiling c) c' := by
      intro s' reply c' heq
      obtain ⟨rfl, rfl, rfl⟩ := Event.ended.inj heq
      exact ⟨⟨c, rfl⟩, hafter⟩
    refine ⟨throughout_append.mpr ⟨hs, hended, hrest⟩, ?_⟩
    rw [List.append_assoc, List.append_assoc] at hlast
    exact hlast

end

/-- What is kept holds of the cache that any of the steps leaves, after all that has happened
until then. -/
theorem Kept.ended {I : List Event → Cache → Prop} (hI : Kept I) {start c : Cache}
    (h : I [] start) {steps : List Step} {before after : List Event} {s : Step} {reply : Reply}
    (hsplit : history steps start = before ++ .ended s reply c :: after) :
    s.Ends reply c ∧ I before c := by
  have hkept : Throughout I [] (history steps start) := (hI.throughout_history h steps).1
  rw [hsplit] at hkept
  exact (throughout_append.mp hkept).2.1 s reply c rfl

/-! ### The number of entries -/

/-- The cache has this capacity, and no more entries. -/
def Within (limit : Nat) (_ : List Event) (c : Cache) : Prop := c.capacity = limit ∧ c.size ≤ limit

theorem size_erase_le (c : Cache) (text : Text) : (c.erase text).size ≤ c.size :=
  Std.TreeMap.size_erase_le

theorem size_insert_le (c : Cache) (text : Text) (tree : Expr) :
    (c.insert text tree).size ≤ c.size + 1 :=
  Std.TreeMap.size_insert_le

/-- There is room for a new entry, because a full cache is emptied first. -/
theorem kept_within {limit : Nat} (hlimit : 1 ≤ limit) : Kept (Within limit) where
  later _ h := h
  erase {_ c} text h := ⟨h.1, Nat.le_trans (size_erase_le c text) h.2⟩
  clear h := ⟨h.1, Nat.zero_le limit⟩
  publish {_ c text tree} h _ := by
    obtain ⟨rfl, hsize⟩ := h
    cases hget : c.get? text with
    | some kept =>
      rw [publish_of_some hget]
      exact ⟨rfl, hsize⟩
    | none =>
      rw [publish_of_none hget]
      by_cases hroom : c.size < c.capacity
      · rw [if_pos hroom]
        exact ⟨rfl, Nat.le_trans (size_insert_le c text tree) hroom⟩
      · rw [if_neg hroom]
        exact ⟨rfl, Nat.le_trans (size_insert_le c.clear text tree) hlimit⟩

/-- The number of entries that a step tells is that of the cache it leaves. -/
theorem size_step (s : Step) (c : Cache) : (step s c).value.1.size = (step s c).value.2.size := by
  cases s <;> rfl

/-- **A cache never outgrows its limit.** Whatever steps are taken, and whatever is done to the
cache while texts are compiled, whenever a step has ended there are no more entries than the
capacity, and this is the one the cache was made with, which is at least one. Nor is anything
else told by the replies. -/
theorem size_le_capacity (limit : Nat) (steps : List Step) :
    (∀ s reply c, .ended s reply c ∈ history steps (ofCapacity limit) →
      c.size ≤ c.capacity ∧ c.capacity = max limit 1 ∧ 1 ≤ c.capacity) ∧
    ∀ reply ∈ told (run steps (ofCapacity limit)).value.1,
      reply.size ≤ max limit 1 ∧
        ∀ capacity size, reply = .capacity capacity size → capacity = max limit 1 := by
  have hlimit : 1 ≤ max limit 1 := Nat.le_max_right limit 1
  have hstart : Within (max limit 1) [] (ofCapacity limit) := ⟨rfl, Nat.zero_le _⟩
  have hended : ∀ s reply c, .ended s reply c ∈ history steps (ofCapacity limit) →
      s.Ends reply c ∧ c.capacity = max limit 1 ∧ c.size ≤ max limit 1 := by
    intro s reply c hmem
    obtain ⟨before, after, hsplit⟩ := List.append_of_mem hmem
    exact (kept_within hlimit).ended hstart hsplit
  constructor
  · intro s reply c hmem
    obtain ⟨-, hcapacity, hsize⟩ := hended s reply c hmem
    rw [hcapacity]
    exact ⟨hsize, rfl, hlimit⟩
  · intro reply htold
    rw [← told_history, List.mem_filterMap] at htold
    obtain ⟨event, hmem, hreply⟩ := htold
    cases event with
    | compiled text outcome => cases hreply
    | ended s replied c =>
      obtain rfl := Option.some.inj hreply
      obtain ⟨⟨start, hends⟩, hcapacity, hsize⟩ := hended s replied c hmem
      obtain ⟨rfl, rfl⟩ := Prod.mk.inj hends
      refine ⟨(size_step s start).symm ▸ hsize, fun capacity size htells => ?_⟩
      cases s <;> cases htells
      exact hcapacity

theorem size_le_capacity_meanwhile :
    let a := "hasRole(a)".toList
    let b := "hasRole(b)".toList
    let steps : List Step := [.fetchWith b [.fetch a] parse]
    let meanwhile := (step (.fetch a) (ofCapacity 0)).value
    .ended (.fetch a) meanwhile.1 meanwhile.2 ∈ history steps (ofCapacity 0) ∧
      meanwhile.2.size ≤ meanwhile.2.capacity ∧
      meanwhile.1 ∈ told (run steps (ofCapacity 0)).value.1 ∧ meanwhile.1.size ≤ 1 := by
  intro a b steps meanwhile
  obtain ⟨hcaches, hreplies⟩ := size_le_capacity 0 steps
  have hended : .ended (.fetch a) meanwhile.1 meanwhile.2 ∈ history steps (ofCapacity 0) := by
    refine List.mem_append_left _ (List.mem_append_left _ (List.mem_append_right _ ?_))
    exact List.mem_cons_self
  have htold : meanwhile.1 ∈ told (run steps (ofCapacity 0)).value.1 := by
    rw [← told_history]
    exact List.mem_filterMap.mpr ⟨_, hended, rfl⟩
  exact ⟨hended, (hcaches _ _ _ hended).1, htold, (hreplies _ htold).1⟩

/-! ### Where entries come from -/

/-- Every entry is what compiling its text has come to. -/
def Sourced (past : List Event) (c : Cache) : Prop :=
  c.Holds fun text tree => .compiled text (.ok tree) ∈ past

theorem kept_sourced : Kept Sourced where
  later _ h text tree hget := List.mem_append_left _ (h text tree hget)
  erase text h := h.erase text
  clear {_ c} _ := Holds.clear c
  publish h hcompiled := h.publish hcompiled

/-- A tree that is given for a text is its entry afterwards. -/
theorem get?_of_gives {s : Step} {c : Cache} {text : Text} {tree : Expr}
    (h : s.Gives text tree (step s c).value.1) : (step s c).value.2.get? text = some tree := by
  cases s with
  | get asked =>
    obtain ⟨rfl, hfound⟩ := h
    exact hfound
  | fetch asked =>
    obtain ⟨rfl, hanswer⟩ := h
    exact get?_fetchWith hanswer
  | fetchWith asked meanwhile outcome =>
    obtain ⟨rfl, hanswer⟩ := h
    exact get?_fetchWith hanswer
  | drop asked => cases h
  | clear => cases h
  | capacity => cases h

/-- A step whose compiling fails leaves the cache as the compiling left it. -/
theorem step_of_error (c : Cache) (text : Text) (error : ParseError) :
    (∀ meanwhile outcome, outcome text = .error error →
      (step (.fetchWith text meanwhile outcome) c).value.2 =
        if c.get? text = none then (run meanwhile c).value.2 else c) ∧
    (parse text = .error error → (step (.fetch text) c).value.2 = c) := by
  constructor
  · intro meanwhile outcome houtcome
    let after := (run meanwhile c).value
    have hc : (after.1, outcome text, after.2) = (after.1, .error error, after.2) := by
      rw [houtcome]
    exact cache_fetchWith_of_error hc
  · intro hparse
    have hc := value_reading text c
    rw [hparse] at hc
    exact (cache_fetchWith_of_error hc).trans (ite_self c)

/-- **A cache never mixes up texts.** Whatever steps are taken, when one has ended, every tree
that the cache has for a text, and the tree that the step has given for a text, is what
compiling has come to before when it was given this very text. A compiling that fails adds
nothing to what was done in the meantime. -/
theorem compiled_before (limit : Nat) (steps : List Step) :
    (∀ before s reply c after,
      history steps (ofCapacity limit) = before ++ .ended s reply c :: after →
      (∀ text tree, c.get? text = some tree → .compiled text (.ok tree) ∈ before) ∧
      ∀ text tree, s.Gives text tree reply → .compiled text (.ok tree) ∈ before) ∧
    ∀ c text error,
      (∀ meanwhile outcome, outcome text = .error error →
        (step (.fetchWith text meanwhile outcome) c).value.2 =
          if c.get? text = none then (run meanwhile c).value.2 else c) ∧
      (parse text = .error error → (step (.fetch text) c).value.2 = c) := by
  refine ⟨fun before s reply c after h => ?_, step_of_error⟩
  have hstart : Sourced [] (ofCapacity limit) := Holds.ofCapacity limit
  obtain ⟨⟨start, hends⟩, hentries⟩ := kept_sourced.ended hstart h
  obtain ⟨rfl, rfl⟩ := Prod.mk.inj hends
  exact ⟨hentries, fun text tree hgives => hentries text tree (get?_of_gives hgives)⟩

theorem compiled_before_meanwhile :
    let a := "hasRole(a)".toList
    let b := "hasRole(b)".toList
    let first := Expr.call .role ["first".toList]
    let second := Expr.call .role ["second".toList]
    let s : Step := .fetchWith a
      [.fetchWith a [] (fun _ => .ok first), .fetchWith b [] (fun _ => .error .empty)]
      (fun _ => .ok second)
    let c := (step s (ofCapacity 1)).value.2
    let before := s.compiling (ofCapacity 1) ++ [.ended s (step s (ofCapacity 1)).value.1 c]
    history [s, .get a] (ofCapacity 1) = before ++ [.ended (.get a) (.found (some first) 1) c] ∧
      .compiled a (.ok first) ∈ before ∧ c.get? b = none := by
  intro a b first second s c before
  have hfound : (step (.get a) c).value = (.found (some first) 1, c) := by
    have hget : c.get? a = some first := by decide +kernel
    have hsize : c.size = 1 := by decide +kernel
    show (Reply.found (c.get? a) c.size, c) = _
    rw [hget, hsize]
  have hsplit : history [s, .get a] (ofCapacity 1) =
      before ++ [.ended (.get a) (.found (some first) 1) c] := by
    rw [← List.append_cons, history, history, hfound]
    rfl
  obtain ⟨-, hgiven⟩ := (compiled_before 1 [s, .get a]).1 before _ _ _ _ hsplit
  exact ⟨hsplit, hgiven a first ⟨rfl, rfl⟩, by decide +kernel⟩

end AccessRules.Cache
