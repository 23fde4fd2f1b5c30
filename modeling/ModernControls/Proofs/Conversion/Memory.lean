import ModernControls.Proofs.Conversion.Logs

/-!
# What an engine remembers

Between requests an engine keeps two things, its configuration and a log, and each kind of request
touches one of them at most: a conversion the log, an import or an assignment the configuration, and
only if it is accepted. So a log stays until the next conversion that has one of its own.

**Own logs (`Reply.ownLog?`).** The log of a conversion that was carried out, or refused with a
report. A conversion that broke off has none.

Results:
- `lastLog_answer`, `lastLog_answerAll`: the log that is remembered is the last one of its own kind;
- `answer_rejected`: a rejected configuration leaves the engine as it was;
- `session_log`: the three laws of a session.
-/
namespace ModernControls

namespace Engine

/-- The log of a conversion that was carried out, or refused with a report. -/
def Reply.ownLog? : Reply → Option (List Note)
  | .converted (.ok conversion) => some conversion.log
  | .converted (.error refusal) =>
    if (Conversion.loggedReport? refusal.error).isSome then some refusal.log else none
  | _ => none

/-- What the log of a conversion tells: that it started, once, and at last that it is completed or
why it was refused, and only one of the two. -/
def Reply.Tells : Reply → Prop
  | .converted (.ok conversion) =>
    Log.Spans (conversion.log.map Note.message) Note.completed.message
  | .converted (.error refusal) => ∀ report, Conversion.loggedReport? refusal.error = some report →
    Log.Spans (refusal.log.map Note.message) (Note.failed report).message
      ∧ Note.completed.message ∉ refusal.log.map Note.message
  | _ => True

variable (e : Engine)

/-! ## One request -/

/-- A request leaves the log as it was, unless it is a conversion with a log of its own. -/
theorem lastLog_answer (request : Request) :
    (e.answer request).1.lastLog = (e.answer request).2.ownLog?.getD e.lastLog := by
  cases request with
  | convert text =>
    show (e.remember (Conversion.convert e.mapping text)).lastLog
      = (Reply.converted (Conversion.convert e.mapping text)).ownLog?.getD e.lastLog
    cases Conversion.convert e.mapping text with
    | ok conversion => rfl
    | error refusal =>
      unfold remember Reply.ownLog?
      dsimp only
      split
      · rfl
      · rfl
  | showLog => rfl
  | «export» => rfl
  | importText text merge => exact lastLog_adopt e merge _
  | importData data merge => exact lastLog_adopt e merge _
  | assign data => exact lastLog_adopt e false _

theorem adopt_rejected {merge : Bool} {imported : Except Mapping.Error Mapping}
    {error : Mapping.Error} (h : (e.adopt merge imported).2 = .error error) :
    (e.adopt merge imported).1 = e := by
  cases imported with
  | ok mapping => cases h
  | error error' => rfl

/-- A rejected configuration leaves the engine as it was. -/
theorem answer_rejected {request : Request} {error : Mapping.Error}
    (h : (e.answer request).2 = .installed (.error error)) : (e.answer request).1 = e := by
  cases request with
  | convert text => cases h
  | showLog => cases h
  | «export» => cases h
  | importText text merge => exact adopt_rejected e (Reply.installed.inj h)
  | importData data merge => exact adopt_rejected e (Reply.installed.inj h)
  | assign data => exact adopt_rejected e (Reply.installed.inj h)

/-- What a conversion answers tells how it went. -/
theorem tells_answer (request : Request) : (e.answer request).2.Tells := by
  cases request with
  | convert text =>
    show (Reply.converted (Conversion.convert e.mapping text)).Tells
    cases h : Conversion.convert e.mapping text with
    | ok conversion =>
      obtain ⟨steps, hlog, hs⟩ := Conversion.log_of_ok h
      show Log.Spans _ _
      rw [hlog]
      exact Log.spans_of_steps hs (by decide +kernel)
    | error refusal =>
      intro report hr
      obtain ⟨steps, hlog, hs⟩ := Conversion.log_of_error h hr
      have hne := Note.message_ne (n := .failed report) (by simp) (by simp)
      rw [hlog]
      exact ⟨Log.spans_of_steps hs hne.1, Log.not_completed_of_steps hs hne.2⟩
  | _ => trivial

/-! ## Sessions -/

/-- The log that is remembered after some requests is the last log of its own that a conversion
had, or the one from before. -/
theorem lastLog_answerAll (requests : List Request) :
    (e.answerAll requests).1.lastLog
      = ((e.answerAll requests).2.filterMap Reply.ownLog?).getLast?.getD e.lastLog := by
  induction requests generalizing e with
  | nil => rfl
  | cons request rest ih =>
    show ((e.answer request).1.answerAll rest).1.lastLog = _
    rw [ih, lastLog_answer]
    show _ = ((((e.answer request).2 :: ((e.answer request).1.answerAll rest).2).filterMap
      Reply.ownLog?).getLast?).getD e.lastLog
    cases h : (e.answer request).2.ownLog? with
    | none => rw [List.filterMap_cons_none h]; rfl
    | some log =>
      rw [List.filterMap_cons_some h, List.getLast?_cons]
      rfl

theorem tells_answerAll (requests : List Request) :
    ∀ reply ∈ (e.answerAll requests).2, reply.Tells := by
  induction requests generalizing e with
  | nil => exact fun _ h => nomatch h
  | cons request rest ih =>
    intro reply h
    rcases List.mem_cons.1 h with rfl | h
    · exact tells_answer e request
    · exact ih _ reply h

/-- In every session of an engine: a conversion with a log of its own leaves this log behind, until
the next such conversion, whatever else is asked for; what a conversion answers tells how it went;
and no conversion changes the configuration, and no rejected configuration the engine. -/
theorem session_log (requests : List Request) :
    (∀ text between own, ((e.answerAll requests).1.answer (.convert text)).2.ownLog? = some own →
        (∀ reply ∈ (((e.answerAll requests).1.answer (.convert text)).1.answerAll between).2,
          reply.ownLog? = none) →
        (((((e.answerAll requests).1.answer (.convert text)).1.answerAll between).1).answer
          .showLog).2 = .log own)
      ∧ (∀ reply ∈ (e.answerAll requests).2, reply.Tells)
      ∧ (∀ text, ((e.answerAll requests).1.answer (.convert text)).1.mapping
          = (e.answerAll requests).1.mapping)
      ∧ ∀ request error, ((e.answerAll requests).1.answer request).2 = .installed (.error error) →
          ((e.answerAll requests).1.answer request).1 = (e.answerAll requests).1 := by
  refine ⟨fun text between own hown hnone => ?_, tells_answerAll e requests,
    fun text => mapping_convert _ text, fun request error h => answer_rejected _ h⟩
  show Reply.log (Engine.lastLog _) = _
  have hlast := lastLog_answerAll ((e.answerAll requests).1.answer (.convert text)).1 between
  rw [List.filterMap_eq_nil_iff.2 hnone] at hlast
  rw [hlast, lastLog_answer, hown]
  rfl

end Engine

end ModernControls
