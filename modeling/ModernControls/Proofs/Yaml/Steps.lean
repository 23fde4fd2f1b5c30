import ModernControls.Proofs.Outcomes
import ModernControls.Yaml.Fault

/-!
# What steps keep

A reading step with a state in the background keeps what is said of the state, gives a good result,
or is refused with an error. This is put together along the steps of a reader.

Results:
- `Keeps.bind`: steps one after the other;
- `Keeps.mapM`, `Keeps.foldlM`: a step for each item of a list.
-/

namespace ModernControls.Yaml

/-- Whether a report is made on an error. -/
def Error.IsReported : Error → Prop
  | .breakage _ => False
  | _ => True

variable {α β γ σ : Type} {refused : Error → Prop}

/-- A step with a state keeps what is said of the state, and gives what is said of its result, or it
is refused with an error of a kind. -/
def Keeps (refused : Error → Prop) (kept : σ → Prop) (step : StateT σ (Except Error) α)
    (given : α → Prop) : Prop :=
  ∀ s, kept s → Ends refused (step s) fun r => kept r.2 ∧ given r.1

namespace Keeps

variable {kept : σ → Prop} {given given' : α → Prop} {given₂ : β → Prop}
  {step : StateT σ (Except Error) α} {next : α → StateT σ (Except Error) β}

theorem bind (h : Keeps refused kept step given)
    (hn : ∀ a, given a → Keeps refused kept (next a) given₂) :
    Keeps refused kept (step >>= next) given₂ := fun s hs =>
  Ends.bindAt (h s hs) fun r hr => hn r.1 hr.2 r.2 hr.1

theorem mono (h : Keeps refused kept step given) (hg : ∀ a, given a → given' a) :
    Keeps refused kept step given' := fun s hs =>
  Ends.mono (h s hs) fun r hr => ⟨hr.1, hg r.1 hr.2⟩

theorem pure {a : α} (h : given a) : Keeps refused kept (Pure.pure a) given := fun _ hs => ⟨hs, h⟩

theorem map {f : α → β} (h : Keeps refused kept step fun a => given₂ (f a)) :
    Keeps refused kept (f <$> step) given₂ := fun s hs =>
  Ends.bind (h s hs) fun _ hr => hr

theorem get : Keeps refused kept (MonadState.get : StateT σ (Except Error) σ) kept :=
  fun _ hs => ⟨hs, hs⟩

theorem modify {f : σ → σ} {given : PUnit → Prop} (h : ∀ s, kept s → kept (f s))
    (hg : given ⟨⟩) : Keeps refused kept (modify f : StateT σ (Except Error) PUnit) given :=
  fun s hs => ⟨h s hs, hg⟩

/-- One good result for each item of a list. -/
theorem mapM {f : γ → StateT σ (Except Error) β} {items : List γ}
    (h : ∀ item, Keeps refused kept (f item) given₂) :
    Keeps refused kept (items.mapM f) fun bs => ∀ b ∈ bs, given₂ b := by
  induction items with
  | nil =>
    rw [List.mapM_nil]
    exact pure fun b hb => absurd hb List.not_mem_nil
  | cons item rest ih =>
    rw [List.mapM_cons]
    refine bind (h item) fun b hb => bind ih fun bs hbs => pure fun c hc => ?_
    exact (List.mem_cons.1 hc).elim (fun he => he ▸ hb) (hbs c)

/-- Steps one after the other, each on what the one before gave. -/
theorem foldlM {f : β → γ → StateT σ (Except Error) β} {items : List γ}
    (h : ∀ b item, given₂ b → Keeps refused kept (f b item) given₂) {b : β} (hb : given₂ b) :
    Keeps refused kept (items.foldlM f b) given₂ := by
  induction items generalizing b with
  | nil =>
    rw [List.foldlM_nil]
    exact pure hb
  | cons item rest ih =>
    rw [List.foldlM_cons]
    exact bind (h b item hb) fun c hc => ih hc

end Keeps

end ModernControls.Yaml
