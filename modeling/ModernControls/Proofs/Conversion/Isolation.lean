import ModernControls.Conversion.Session

/-!
# Engines side by side

The engines of a session do not notice one another. What an engine answers in a session is what it
answers by itself to the requests that go to it, whatever is asked of the others in between and
whether that succeeds or fails.

**Owners (`Owner`).** Three engines outlive a request: the two that have names, and the one that all
share, which is made when it is first asked for. An engine for one conversion alone has no owner.

**Requests without an engine's name (`Request.isUnnamed`).** Their answers follow from what they
bring with them and from the texts that the shared engine has converted before.

Results:
- `owned_step`, `reply_step`: what one request does to the engine of an owner;
- `owned_run`, `repliesTo_eq`: what a session does to it, and what it answers;
- `replies_isolated`: engines of a session answer as if they were alone.
-/
namespace ModernControls.Session

/-- Whose engine it is. -/
inductive Owner
  | named (name : EngineName)
  | everyone
  deriving DecidableEq

/-- The engine of an owner. -/
def owned (s : Session) : Owner → Engine
  | .named name => s.engine name
  | .everyone => s.sharedEngine

/-- What a request asks of the engine of an owner, if it goes there. -/
def Request.of? (o : Owner) : Request → Option Engine.Request
  | .toEngine name request => if o = .named name then some request else none
  | .convertShared text => if o = .everyone then some (.convert text) else none
  | .convertAlone .. => none
  | .sharedLog => if o = .everyone then some .showLog else none

/-- Whether a request names no engine. -/
def Request.isUnnamed : Request → Bool
  | .toEngine .. => false
  | _ => true

/-- The text that the shared engine is asked to convert. -/
def Request.sharedText? : Request → Option Text
  | .convertShared text => some text
  | _ => none

/-- The answers to those of some requests that go to the engine of an owner. -/
def repliesTo (s : Session) (o : Owner) (requests : List Request) : List Reply :=
  ((requests.zip (s.run requests).2).filter fun e => (e.1.of? o).isSome).map (·.2)

variable {s s' : Session} {o : Owner} {request : Request}

/-! ## One request -/

/-- A request changes the engine of an owner only if it goes there. -/
theorem owned_step (s : Session) (o : Owner) (request : Request) :
    (s.step request).1.owned o
      = ((s.owned o).answerAll (request.of? o).toList).1 := by
  cases request with
  | toEngine name request =>
    by_cases h : o = .named name
    · subst h
      simp only [Request.of?, if_true]
      exact engine_withEngine_self s name _
    · simp only [Request.of?, if_neg h]
      cases o with
      | named other => exact engine_step_other s (fun he => h (congrArg Owner.named he)) request
      | everyone => exact sharedEngine_step s name request
  | convertShared text => cases o with
    | named name => cases name <;> rfl
    | everyone => rfl
  | convertAlone mapping text => rfl
  | sharedLog => cases o with
    | named name => cases name <;> rfl
    | everyone => rfl

/-- The answer to a request is that of the engine it goes to. -/
theorem reply_step {r : Engine.Request} (h : request.of? o = some r) :
    (s.step request).2 = .reply ((s.owned o).answer r).2 := by
  cases request with
  | toEngine name request =>
    simp only [Request.of?, Option.ite_none_right_eq_some, Option.some.injEq] at h
    obtain ⟨rfl, rfl⟩ := h
    rfl
  | convertShared text =>
    simp only [Request.of?, Option.ite_none_right_eq_some, Option.some.injEq] at h
    obtain ⟨rfl, rfl⟩ := h
    rfl
  | convertAlone mapping text => cases h
  | sharedLog =>
    simp only [Request.of?, Option.ite_none_right_eq_some, Option.some.injEq] at h
    obtain ⟨rfl, rfl⟩ := h
    rfl

/-- Of a session, only the shared engine has to do with a request that names none. -/
theorem reply_of_isUnnamed (h : request.isUnnamed = true)
    (hs : s.sharedEngine = s'.sharedEngine) : (s.step request).2 = (s'.step request).2 := by
  cases request with
  | toEngine name request => cases h
  | convertShared text => simp only [step, answerShared, hs]
  | convertAlone mapping text => rfl
  | sharedLog => simp only [step, answerShared, hs]

/-! ## Sessions -/

theorem answerAll_append (e : Engine) (first rest : List Engine.Request) :
    e.answerAll (first ++ rest)
      = (((e.answerAll first).1.answerAll rest).1,
          (e.answerAll first).2 ++ ((e.answerAll first).1.answerAll rest).2) := by
  induction first generalizing e with
  | nil => rfl
  | cons request others ih => simp only [List.cons_append, Engine.answerAll, ih]

theorem filterMap_cons_toList {α β : Type} (f : α → Option β) (a : α) (rest : List α) :
    (a :: rest).filterMap f = (f a).toList ++ rest.filterMap f := by
  cases h : f a <;> simp [h]

/-- The engine of an owner after a session is what it is after its own requests. The induction is on
the requests; each either goes to the engine or leaves it alone. -/
theorem owned_run (s : Session) (o : Owner) (requests : List Request) :
    (s.run requests).1.owned o
      = ((s.owned o).answerAll (requests.filterMap (Request.of? o))).1 := by
  induction requests generalizing s with
  | nil => rfl
  | cons request rest ih =>
    rw [filterMap_cons_toList, answerAll_append, ← owned_step]
    exact ih (s.step request).1

theorem repliesTo_eq (s : Session) (o : Owner) (requests : List Request) :
    s.repliesTo o requests
      = ((s.owned o).answerAll (requests.filterMap (Request.of? o))).2.map .reply := by
  induction requests generalizing s with
  | nil => rfl
  | cons request rest ih =>
    have hrest := ih (s.step request).1
    rw [owned_step] at hrest
    rw [filterMap_cons_toList, answerAll_append, List.map_append, ← hrest]
    simp only [repliesTo, run, List.zip_cons_cons, List.filter_cons]
    cases h : request.of? o with
    | none => rfl
    | some r =>
      rw [Option.isSome_some, if_pos rfl, List.map_cons, reply_step h]
      rfl

/-- Looking at the log leaves the shared engine alone, so what it has come to follows from the texts
that it has converted. -/
theorem sharedEngine_run (s : Session) (requests : List Request) :
    (s.run requests).1.sharedEngine
      = (s.sharedEngine.answerAll
          ((requests.filterMap Request.sharedText?).map .convert)).1 := by
  induction requests generalizing s with
  | nil => rfl
  | cons request rest ih =>
    have hstep : (s.step request).1.sharedEngine
        = (s.sharedEngine.answerAll (request.sharedText?.toList.map .convert)).1 := by
      rw [← owned, owned_step]
      cases request <;> rfl
    rw [filterMap_cons_toList, List.map_append, answerAll_append, ← hstep]
    exact ih (s.step request).1

/-- The answer to a request in the middle of a session. -/
theorem reply_at (s : Session) (before after : List Request) (request : Request) :
    (s.run (before ++ request :: after)).2[before.length]?
      = some ((s.run before).1.step request).2 := by
  induction before generalizing s with
  | nil => rfl
  | cons first rest ih => exact ih (s.step first).1

/-- Engines of a session answer as if they were alone. The answers to the requests that go to one
engine, in any order among others, are those that it gives to these requests by itself, and it
comes out as it would by itself; and where two sessions begin with the same shared engine, two
requests that are the same and name no engine have the same answer if the shared engine has
converted the same texts before them. -/
theorem replies_isolated :
    (∀ (s : Session) (o : Owner) (requests : List Request),
      s.repliesTo o requests
          = ((s.owned o).answerAll (requests.filterMap (Request.of? o))).2.map .reply
        ∧ (s.run requests).1.owned o
          = ((s.owned o).answerAll (requests.filterMap (Request.of? o))).1)
      ∧ ∀ (s s' : Session) (before after before' after' : List Request) (request : Request),
        s.sharedEngine = s'.sharedEngine → request.isUnnamed = true →
        before.filterMap Request.sharedText? = before'.filterMap Request.sharedText? →
        ∃ reply, (s.run (before ++ request :: after)).2[before.length]? = some reply
          ∧ (s'.run (before' ++ request :: after')).2[before'.length]? = some reply := by
  refine ⟨fun s o requests => ⟨repliesTo_eq s o requests, owned_run s o requests⟩,
    fun s s' before after before' after' request hs hr hb => ?_⟩
  refine ⟨_, reply_at s before after request, ?_⟩
  rw [reply_at s' before' after' request]
  have hshared : (s.run before).1.sharedEngine = (s'.run before').1.sharedEngine := by
    rw [sharedEngine_run, sharedEngine_run, hs, hb]
  exact congrArg some (reply_of_isUnnamed hr hshared).symm

end ModernControls.Session
