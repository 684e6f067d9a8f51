import AccessRules.Enforcer.Basic

/-! Sessions: enforcers at work, some of them sharing a cache.

A clone of an enforcer has its configuration and shares its cache, so the caches of
a session are counted apart from its enforcers. -/
namespace AccessRules

/-- An enforcer of a session: its configuration, and which of the caches is its own. -/
structure Enforcer where
  config : Config
  cacheIndex : Option Nat
  deriving DecidableEq

/-- The caches and the enforcers of a session, in the order of their making. -/
structure Session where
  caches : List Cache
  enforcers : List Enforcer

namespace Session

/-- A session of nobody. -/
def empty : Session := ⟨[], []⟩

/-- The session with one more enforcer, which has a cache of its own if its
configuration asks for one. -/
def addEnforcer (s : Session) (config : Config) : Session :=
  match config.newCache? with
  | none => ⟨s.caches, s.enforcers ++ [⟨config, none⟩]⟩
  | some cache => ⟨s.caches ++ [cache], s.enforcers ++ [⟨config, some s.caches.length⟩]⟩

/-- The session that begins with one enforcer. -/
def start (config : Config) : Session := empty.addEnforcer config

/-- The cache of an enforcer. -/
def cacheOf? (s : Session) (e : Enforcer) : Option Cache := e.cacheIndex.bind (s.caches[·]?)

/-- The session after the cache of an enforcer has become `cache`. -/
def setCache (s : Session) (e : Enforcer) (cache : Option Cache) : Session :=
  match e.cacheIndex, cache with
  | some i, some c => ⟨s.caches.set i c, s.enforcers⟩
  | _, _ => s

/-- For each enforcer the number of entries of its cache, if it has one. -/
def cacheSizes (s : Session) : List (Option Nat) :=
  s.enforcers.map fun e => (s.cacheOf? e).map Cache.size

/-- What can be asked of an enforcer. -/
inductive Step
  | new (config : Config)
  | clone
  | config
  | inspect (text : Text)
  | compile (text : Text)
  | decide (text : Text) (ctx : Context)
  | decideTree (tree : Expr) (ctx : Context)
  | cache (step : Cache.Step)

/-- What a step answers. -/
inductive Reply
  | made (index : Nat)
  | config (config : Config)
  | report (report : Report)
  | compiled (result : Except ParseError Expr)
  | decided (result : Except ParseError Decision)
  | cache (reply : Option Cache.Reply)
  | nobody

/-- Compiles a text for an enforcer of the session. -/
def compile (s : Session) (e : Enforcer) (text : Text) :
    Logged (Except ParseError Expr × Session) := do
  let (result, cache) ← e.config.compile text (s.cacheOf? e)
  return (result, s.setCache e cache)

/-- Takes a step with an enforcer of the session. -/
def stepWith (s : Session) (e : Enforcer) : Step → Logged (Reply × Session)
  | .new config => pure (.made s.enforcers.length, s.addEnforcer config)
  | .clone => pure (.made s.enforcers.length, ⟨s.caches, s.enforcers ++ [e]⟩)
  | .config => pure (.config e.config, s)
  | .inspect text => do
    return (.report (← inspectLogged text), s)
  | .compile text => do
    let (result, s) ← s.compile e text
    return (.compiled result, s)
  | .decide text ctx => do
    let (result, s) ← s.compile e text
    match result with
    | .error error => return (.decided (.error error), s)
    | .ok tree => return (.decided (.ok (← evaluate ctx tree)), s)
  | .decideTree tree ctx => do
    return (.decided (.ok (← evaluate ctx tree)), s)
  | .cache step =>
    match s.cacheOf? e with
    | none => pure (.cache none, s)
    | some c => do
      let (reply, c) ← c.step step
      return (.cache (some reply), s.setCache e (some c))

/-- Takes a step with the enforcer of this number. -/
def step (s : Session) (on : Nat) (step : Step) : Logged (Reply × Session) :=
  match s.enforcers[on]? with
  | none => pure (.nobody, s)
  | some e => s.stepWith e step

/-- Takes steps in order, each with the enforcer of its number. After each step the
sizes of the caches are told. -/
def run : Session → List (Nat × Step) → Logged (List (Reply × List (Option Nat)) × Session)
  | s, [] => pure ([], s)
  | s, (on, first) :: rest => do
    let (reply, s) ← s.step on first
    let (replies, last) ← run s rest
    return ((reply, s.cacheSizes) :: replies, last)

end Session
end AccessRules
