import AccessRules.Enforcer.Session
import AccessRules.Proofs.Cache.Entries
import AccessRules.Proofs.Grammar.Inspection

/-! Caches, clones and strict inspection cannot be told from the answers.

`Transparent` is a session without caches: each enforcer has only its configuration,
compiling a text comes to `Config.verdict`, and the one thing a cache adds is that looking
up a text may find what reading the text gives. `transparent_run` shows that every session
is one. Between steps `Sound` holds: every entry of every cache is what reading its text
gives. A strict enforcer can therefore use an entry that was put there without inspection,
because a text that is read would have passed it. -/
namespace AccessRules

/-! ### Without caches -/

/-- What compiling a text comes to: its tree, or the first problem in it, or for a
strict enforcer all of them. -/
def Config.verdict (config : Config) (text : Text) : Except ParseError Expr :=
  match parse text with
  | .ok tree => .ok tree
  | .error error => .error (if config.strict then .invalid (inspect text).errors else error)

/-- The tree is what reading the text gives. -/
def Reads (text : Text) (tree : Expr) : Prop := parse text = .ok tree

namespace Cache.Step

/-- What a cache answers if its entries are what reading their texts gives. -/
def Faithful : Step → Reply → Prop
  | .get text, reply => ∃ found size, reply = .found found size ∧ ∀ tree ∈ found, Reads text tree
  | .fetch text, reply => ∃ size, reply = .parsed (parse text) size
  | _, _ => True

/-- The step brings a compiling of its own. -/
def Custom : Step → Prop
  | .fetchWith _ _ _ => True
  | _ => False

end Cache.Step

namespace Session

/-- What an enforcer of this configuration answers, being one of `count`, if no cache can
be noticed. -/
def Step.Answered (config : Config) (count : Nat) : Step → Reply → Prop
  | .new _, reply | .clone, reply => reply = .made count
  | .config, reply => reply = .config config
  | .inspect text, reply => reply = .report (AccessRules.inspect text)
  | .compile text, reply => reply = .compiled (config.verdict text)
  | .decide text ctx, reply =>
    reply = .decided ((config.verdict text).map fun tree => (evaluate ctx tree).value)
  | .decideTree tree ctx, reply => reply = .decided (.ok (evaluate ctx tree).value)
  | .cache step, reply => ∃ told, reply = .cache told ∧ told.isSome = config.cacheEnabled ∧
      ∀ answer ∈ told, step.Faithful answer

/-- The configurations there are after a step of an enforcer with this one. -/
def Step.configs (config : Config) (configs : List Config) : Step → List Config
  | .new other => configs ++ [other]
  | .clone => configs ++ [config]
  | _ => configs

/-- The replies to the steps of enforcers with these configurations, if no cache can be
noticed. -/
inductive Transparent : List Config → List (Nat × Step) → List Reply → Prop
  | nil {configs : List Config} : Transparent configs [] []
  | nobody {configs : List Config} {on : Nat} {step : Step} {rest : List (Nat × Step)}
      {replies : List Reply} (who : configs[on]? = none)
      (later : Transparent configs rest replies) :
      Transparent configs ((on, step) :: rest) (.nobody :: replies)
  | step {configs : List Config} {on : Nat} {config : Config} {step : Step} {reply : Reply}
      {rest : List (Nat × Step)} {replies : List Reply} (who : configs[on]? = some config)
      (answered : step.Answered config configs.length reply)
      (later : Transparent (step.configs config configs) rest replies) :
      Transparent configs ((on, step) :: rest) (reply :: replies)

/-- The step brings a compiling of its own to a cache. -/
def Step.Custom : Step → Prop
  | .cache step => step.Custom
  | _ => False

end Session

/-! ### Compiling -/

theorem value_inspectLogged (text : Text) : (inspectLogged text).value = inspect text := by
  simp only [inspectLogged]
  split <;> rfl

/-- An inspection finds something in a text that is not read. -/
theorem not_valid_of_parse {text : Text} {error : ParseError} (h : parse text = .error error) :
    (inspect text).valid = false := by
  rw [Bool.eq_false_iff]
  intro hvalid
  obtain ⟨tree, htree⟩ := parse_of_faults (valid_inspect.mp hvalid)
  rw [h] at htree
  cases htree

namespace Config

theorem verdict_eq_ok (config : Config) {text : Text} {tree : Expr} :
    config.verdict text = .ok tree ↔ Reads text tree := by
  unfold verdict Reads
  split <;> simp_all

/-- Compiling afresh comes to the verdict: what is read passes the inspection, and the
inspection finds something in what is not. -/
theorem value_compileFresh (config : Config) (text : Text) :
    (config.compileFresh text).value = config.verdict text := by
  unfold compileFresh
  cases hstrict : config.strict with
  | false =>
    simp only [Bool.false_eq_true, if_false, value_parseLogged, verdict, hstrict]
    cases parse text <;> rfl
  | true =>
    simp only [if_true, Logged.value_bind, value_inspectLogged]
    cases hparse : parse text with
    | ok tree =>
      have hvalid : (inspect text).valid = true := valid_inspect.mpr (faults_of_parse hparse)
      simp only [hvalid, if_true, value_parseLogged, verdict, hparse]
    | error error =>
      simp only [not_valid_of_parse hparse, verdict, hparse, hstrict, if_true]
      rfl

/-- Compiling comes to the verdict, whatever cache there is, as long as its entries are what
reading gives; and that they stay. -/
theorem value_compile (config : Config) (text : Text) {cache : Option Cache}
    (h : ∀ c ∈ cache, c.Holds Reads) :
    (config.compile text cache).value.1 = config.verdict text ∧
      ∀ c ∈ (config.compile text cache).value.2, c.Holds Reads := by
  have hnote : (config.compile text cache).value = (config.compileIn text cache).value := by
    unfold compile
    simp only [Logged.value_bind]
    split <;> rfl
  rw [hnote]
  cases cache with
  | none => exact ⟨config.value_compileFresh text, nofun⟩
  | some c =>
    let afresh (given : Text) (c : Cache) : Logged (Unit × Except ParseError Expr × Cache) := do
      return ((), ← config.compileFresh given, c)
    have hafresh : (afresh text c).value = ((), config.verdict text, c) := by
      simp only [afresh, Logged.value_bind, Logged.value_pure, value_compileFresh]
    have hfetch := (h c rfl).fetchWith hafresh fun _ => config.verdict_eq_ok.symm
    refine ⟨hfetch.1, fun c' hc' => ?_⟩
    cases hc'
    exact hfetch.2

end Config

/-! ### Steps on a cache -/

namespace Cache

theorem value_fetch {c : Cache} (h : c.Holds Reads) (text : Text) :
    (c.fetch text).value.answer = parse text ∧ (c.fetch text).value.cache.Holds Reads := by
  exact h.fetchWith (value_reading text c) fun _ => Iff.rfl

/-- A cache whose entries are what reading gives answers faithfully, and stays one. -/
theorem faithful_step {c : Cache} (h : c.Holds Reads) {s : Step} (hs : ¬s.Custom) :
    s.Faithful (step s c).value.1 ∧ (step s c).value.2.Holds Reads := by
  cases s with
  | get text => exact ⟨⟨c.get? text, c.size, rfl, h text⟩, h⟩
  | fetch text =>
    obtain ⟨hanswer, hholds⟩ := value_fetch h text
    refine ⟨⟨(c.fetch text).value.cache.size, ?_⟩, hholds⟩
    rw [← hanswer]
    rfl
  | fetchWith text meanwhile outcome => exact absurd trivial hs
  | drop text => exact ⟨trivial, h.erase text⟩
  | clear => exact ⟨trivial, Holds.clear c⟩
  | capacity => exact ⟨trivial, h⟩

end Cache

/-! ### Steps of a session -/

namespace Session

/-- What holds between the steps of a session: every entry of every cache is what reading
its text gives, and the enforcers that keep a cache have one. -/
structure Sound (s : Session) : Prop where
  entries : ∀ c ∈ s.caches, c.Holds Reads
  indices : ∀ e ∈ s.enforcers, e.cacheIndex.isSome = e.config.cacheEnabled ∧
    ∀ i ∈ e.cacheIndex, i < s.caches.length

/-- The configurations of the enforcers. -/
def configs (s : Session) : List Config := s.enforcers.map (·.config)

theorem addEnforcer_of_disabled (s : Session) {config : Config} (h : config.cacheEnabled = false) :
    s.addEnforcer config = ⟨s.caches, s.enforcers ++ [⟨config, none⟩]⟩ := by
  simp [addEnforcer, Config.newCache?, h]

theorem addEnforcer_of_enabled (s : Session) {config : Config} (h : config.cacheEnabled = true) :
    s.addEnforcer config = ⟨s.caches ++ [.ofCapacity config.cacheCapacity],
      s.enforcers ++ [⟨config, some s.caches.length⟩]⟩ := by
  simp [addEnforcer, Config.newCache?, h]

namespace Sound
variable {s : Session}

theorem cacheOf? (h : s.Sound) {e : Enforcer} (he : e ∈ s.enforcers) :
    (s.cacheOf? e).isSome = e.config.cacheEnabled ∧ ∀ c ∈ s.cacheOf? e, c.Holds Reads := by
  obtain ⟨hsome, hlt⟩ := h.indices e he
  unfold Session.cacheOf?
  cases hi : e.cacheIndex with
  | none => exact ⟨by rw [← hsome, hi]; rfl, nofun⟩
  | some i =>
    rw [Option.bind_some, List.getElem?_eq_getElem (hlt i hi)]
    refine ⟨by rw [← hsome, hi]; rfl, fun c hc => ?_⟩
    cases hc
    exact h.entries _ (List.getElem_mem _)

theorem setCache (h : s.Sound) (e : Enforcer) {cache : Option Cache}
    (hcache : ∀ c ∈ cache, c.Holds Reads) : (s.setCache e cache).Sound := by
  unfold Session.setCache
  split
  · rename_i i c hi
    refine ⟨fun c' hc' => ?_, fun e' he' => ?_⟩
    · rcases List.mem_or_eq_of_mem_set hc' with hmem | rfl
      · exact h.entries c' hmem
      · exact hcache _ rfl
    · rw [List.length_set]
      exact h.indices e' he'
  · exact h

theorem addEnforcer (h : s.Sound) (config : Config) : (s.addEnforcer config).Sound := by
  cases henabled : config.cacheEnabled with
  | false =>
    rw [addEnforcer_of_disabled s henabled]
    refine ⟨h.entries, fun e he => ?_⟩
    rcases List.mem_append.mp he with he | he
    · exact h.indices e he
    · obtain rfl := List.mem_singleton.mp he
      exact ⟨henabled.symm, nofun⟩
  | true =>
    rw [addEnforcer_of_enabled s henabled]
    refine ⟨fun c hc => ?_, fun e he => ?_⟩
    · rcases List.mem_append.mp hc with hc | hc
      · exact h.entries c hc
      · obtain rfl := List.mem_singleton.mp hc
        exact Cache.Holds.ofCapacity _
    · rw [List.length_append]
      rcases List.mem_append.mp he with he | he
      · obtain ⟨hsome, hlt⟩ := h.indices e he
        exact ⟨hsome, fun i hi => Nat.lt_add_right _ (hlt i hi)⟩
      · obtain rfl := List.mem_singleton.mp he
        refine ⟨henabled.symm, fun i hi => ?_⟩
        cases hi
        exact Nat.lt_succ_self _

theorem clone (h : s.Sound) {e : Enforcer} (he : e ∈ s.enforcers) :
    Sound ⟨s.caches, s.enforcers ++ [e]⟩ := by
  refine ⟨h.entries, fun e' he' => ?_⟩
  rcases List.mem_append.mp he' with he' | he'
  · exact h.indices e' he'
  · obtain rfl := List.mem_singleton.mp he'
    exact h.indices e' he

end Sound

theorem sound_start (config : Config) : (start config).Sound :=
  Sound.addEnforcer ⟨fun _ h => absurd h List.not_mem_nil, fun _ h => absurd h List.not_mem_nil⟩
    config

theorem configs_setCache (s : Session) (e : Enforcer) (cache : Option Cache) :
    (s.setCache e cache).configs = s.configs := by
  unfold setCache
  split <;> rfl

theorem configs_addEnforcer (s : Session) (config : Config) :
    (s.addEnforcer config).configs = s.configs ++ [config] := by
  unfold addEnforcer
  split <;> simp [configs]

/-- Compiling for an enforcer of a sound session comes to the verdict of its configuration. -/
theorem value_compile {s : Session} (h : s.Sound) {e : Enforcer} (he : e ∈ s.enforcers)
    (text : Text) :
    (s.compile e text).value.1 = e.config.verdict text ∧ (s.compile e text).value.2.Sound ∧
      (s.compile e text).value.2.configs = s.configs := by
  obtain ⟨hverdict, hholds⟩ := e.config.value_compile text (h.cacheOf? he).2
  exact ⟨hverdict, h.setCache e hholds, configs_setCache s e _⟩

/-- **A step of a sound session is answered as if there were no caches**, and leaves a sound
session. -/
theorem answered_stepWith {s : Session} (h : s.Sound) {e : Enforcer} (he : e ∈ s.enforcers)
    {step : Step} (hstep : ¬step.Custom) :
    step.Answered e.config s.configs.length (s.stepWith e step).value.1 ∧
      (s.stepWith e step).value.2.Sound ∧
      (s.stepWith e step).value.2.configs = step.configs e.config s.configs := by
  have hcount : s.enforcers.length = s.configs.length := (List.length_map _).symm
  cases step with
  | new config =>
    exact ⟨congrArg Reply.made hcount, h.addEnforcer config, configs_addEnforcer s config⟩
  | clone =>
    exact ⟨congrArg Reply.made hcount, h.clone he, by simp [stepWith, configs, Step.configs]⟩
  | config => exact ⟨rfl, h, rfl⟩
  | inspect text => exact ⟨congrArg Reply.report (value_inspectLogged text), h, rfl⟩
  | decideTree tree ctx => exact ⟨rfl, h, rfl⟩
  | compile text =>
    obtain ⟨hverdict, hsound, hconfigs⟩ := value_compile h he text
    exact ⟨congrArg Reply.compiled hverdict, hsound, hconfigs⟩
  | decide text ctx =>
    obtain ⟨hverdict, hsound, hconfigs⟩ := value_compile h he text
    simp only [stepWith, Step.Answered, Logged.value_bind, ← hverdict]
    cases (s.compile e text).value.1 with
    | error error => exact ⟨rfl, hsound, hconfigs⟩
    | ok tree => exact ⟨rfl, hsound, hconfigs⟩
  | cache step =>
    obtain ⟨hsome, hholds⟩ := h.cacheOf? he
    simp only [stepWith]
    cases hc : s.cacheOf? e with
    | none =>
      rw [hc] at hsome
      exact ⟨⟨none, rfl, hsome, nofun⟩, h, rfl⟩
    | some c =>
      rw [hc] at hsome
      obtain ⟨hfaithful, hafter⟩ := Cache.faithful_step (hholds c hc) hstep
      refine ⟨⟨some (c.step step).value.1, rfl, hsome, fun answer ha => ?_⟩,
        h.setCache e fun c' hc' => ?_, configs_setCache s e _⟩
      · cases ha
        exact hfaithful
      · cases hc'
        exact hafter

/-- **A session is answered as if there were no caches.** -/
theorem transparent_of_sound {s : Session} (h : s.Sound) {steps : List (Nat × Step)}
    (hsteps : ∀ x ∈ steps, ¬x.2.Custom) :
    Transparent s.configs steps ((s.run steps).value.1.map (·.1)) := by
  induction steps generalizing s with
  | nil => exact .nil
  | cons first rest ih =>
    obtain ⟨on, step⟩ := first
    obtain ⟨hfirst, hrest⟩ := List.forall_mem_cons.mp hsteps
    simp only [run, Logged.value_bind, Logged.value_pure, List.map_cons, Session.step]
    cases he : s.enforcers[on]? with
    | none => exact .nobody (by simp [configs, he]) (ih h hrest)
    | some e =>
      obtain ⟨hanswered, hsound, hconfigs⟩ :=
        answered_stepWith h (List.mem_of_getElem? he) hfirst
      have hwho : s.configs[on]? = some e.config := by simp [configs, he]
      refine .step hwho hanswered ?_
      rw [← hconfigs]
      exact ih hsound hrest

/-- **Caches, clones and strict inspection cannot be told from the answers.** Whatever
enforcers are made and cloned in a session, and whatever is asked of them and of their
caches short of compiling by other means: a lenient enforcer compiles a text as reading it
goes, a strict one to the same tree or else to everything that an inspection finds, which
is never nothing; deciding goes on from there; and what is found in a cache under a text
is its tree. -/
theorem transparent_run (config : Config) {steps : List (Nat × Step)}
    (h : ∀ x ∈ steps, ¬x.2.Custom) :
    Transparent [config] steps (((start config).run steps).value.1.map (·.1)) ∧
      ∀ text error, parse text = .error error → (AccessRules.inspect text).errors ≠ [] := by
  constructor
  · have hrun := transparent_of_sound (sound_start config) h
    rwa [show (start config).configs = [config] from configs_addEnforcer empty config] at hrun
  · intro text error hparse hnil
    have hvalid := not_valid_of_parse hparse
    rw [Report.valid, hnil] at hvalid
    cases hvalid

theorem transparent_run_shared_cache :
    let strict : Config := ⟨true, 1, true⟩
    let a := "hasRole('A')".toList
    let steps : List (Nat × Step) :=
      [(0, .cache (.fetch a)), (0, .clone), (1, .compile a), (1, .compile "hasRole(".toList),
        (0, .new ⟨false, 1, false⟩), (2, .decide a fun _ => true), (1, .cache (.get a))]
    (∀ x ∈ steps, ¬x.2.Custom) ∧
      Transparent [strict] steps (((start strict).run steps).value.1.map (·.1)) ∧
      ∀ text error, parse text = .error error → (AccessRules.inspect text).errors ≠ [] := by
  intro strict a steps
  have hsteps : ∀ x ∈ steps, ¬x.2.Custom := by
    simp [steps, Step.Custom, Cache.Step.Custom]
  exact ⟨hsteps, transparent_run strict hsteps⟩

end Session
end AccessRules
