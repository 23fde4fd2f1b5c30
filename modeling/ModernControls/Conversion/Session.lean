import ModernControls.Conversion.Engine

/-!
# Sessions

Two engines side by side, and a third one that all share who have none of their own, made with the
built-in configuration when it is first asked for. Requests name the engine that they go to; a
conversion with a configuration of its own goes to an engine that is made for it alone.

Results:
- `engine_step_other`: a request to one engine leaves the other as it was;
- `sharedEngine_step`: a request to an engine leaves the shared one as it was.
-/

namespace ModernControls

/-- Which of two engines. -/
inductive EngineName
  | first
  | second
  deriving DecidableEq, Repr

/-- Two engines and, once it has been asked for, the shared one.
mirrors `_default_engine` (engine.lib 297) and the engines beside it -/
structure Session where
  first : Engine
  second : Engine
  shared : Option Engine
  deriving DecidableEq

namespace Session

/-- A session whose first engine has a configuration given as JSON, or the built-in one. -/
def start (mapping : Option Json) : Except Mapping.Error Session :=
  (Engine.ofJson mapping).map (⟨·, .builtIn, none⟩)

/-- An engine of a session. -/
def engine (s : Session) : EngineName → Engine
  | .first => s.first
  | .second => s.second

/-- A session with another engine under a name. -/
def withEngine (s : Session) (name : EngineName) (e : Engine) : Session :=
  match name with
  | .first => { s with first := e }
  | .second => { s with second := e }

/-- The shared engine, a new one if there is none yet.
mirrors `get_engine` (engine.lib 300-305) -/
def sharedEngine (s : Session) : Engine := s.shared.getD .builtIn

/-- A session whose shared engine has answered a request, and the answer.
mirrors `convert` and `get_conversion_log` (engine.lib 308-317) -/
def answerShared (s : Session) (request : Engine.Request) : Session × Engine.Reply :=
  let answered := s.sharedEngine.answer request
  ({ s with shared := some answered.1 }, answered.2)

/-- A request in a session. -/
inductive Request
  | toEngine (name : EngineName) (request : Engine.Request)
  | convertShared (text : Text)
  | convertAlone (mapping : Json) (text : Text)
  | sharedLog
  deriving DecidableEq

/-- The answer to a request, or the reason why no engine could be made for it. -/
inductive Reply
  | reply (reply : Engine.Reply)
  | noEngine (error : Mapping.Error)

/-- The conversion of a text by an engine that is made for it alone.
mirrors `convert` (engine.lib 308-312) with mapping tables of its own -/
def aloneReply (mapping : Json) (text : Text) : Reply :=
  match Engine.ofJson (some mapping) with
  | .ok e => .reply (.converted (e.convert text).2)
  | .error error => .noEngine error

/-- A session after a request, and its answer. -/
def step (s : Session) : Request → Session × Reply
  | .toEngine name request =>
    let answered := (s.engine name).answer request
    (s.withEngine name answered.1, .reply answered.2)
  | .convertShared text =>
    let answered := s.answerShared (.convert text)
    (answered.1, .reply answered.2)
  | .convertAlone mapping text => (s, aloneReply mapping text)
  | .sharedLog =>
    let answered := s.answerShared .showLog
    (answered.1, .reply answered.2)

/-- A session after several requests, and their answers. -/
def run (s : Session) : List Request → Session × List Reply
  | [] => (s, [])
  | request :: rest =>
    let first := s.step request
    let others := run first.1 rest
    (others.1, first.2 :: others.2)

theorem engine_withEngine_self (s : Session) (name : EngineName) (e : Engine) :
    (s.withEngine name e).engine name = e := by
  cases name <;> rfl

theorem engine_step_other (s : Session) {name other : EngineName} (h : other ≠ name)
    (request : Engine.Request) :
    (s.step (.toEngine name request)).1.engine other = s.engine other := by
  cases name <;> cases other <;> simp_all [step, withEngine, engine]

theorem sharedEngine_step (s : Session) (name : EngineName) (request : Engine.Request) :
    (s.step (.toEngine name request)).1.sharedEngine = s.sharedEngine := by
  cases name <;> rfl

end Session

end ModernControls
