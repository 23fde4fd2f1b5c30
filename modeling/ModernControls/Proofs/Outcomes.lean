/-!
# Outcomes

What has to have gone well for steps one after the other to give a result, and what steps end with
if they need not go well.

Results:
- `exists_of_bind`, `exists_of_map`: the first step gave a result that the second went on from;
- `eq_ok_of_toOption`: what is found of an outcome is its result;
- `Ends.bind`, `Ends.bindAt`: what is known of results and errors, put together along the steps;
- `GivesIff.bind`, `GivesIff.bindAt`: so is what decides whether there is a result.
-/
namespace ModernControls

theorem exists_of_bind {ε α β : Type} {x : Except ε α} {f : α → Except ε β} {b : β}
    (h : (x >>= f) = .ok b) : ∃ a, x = .ok a ∧ f a = .ok b := by
  cases x with
  | error e => cases h
  | ok a => exact ⟨a, rfl, h⟩

theorem exists_of_map {ε α β : Type} {x : Except ε α} {f : α → β} {b : β}
    (h : x.map f = .ok b) : ∃ a, x = .ok a ∧ f a = b := by
  cases x with
  | error e => cases h
  | ok a => exact ⟨a, rfl, Except.ok.inj h⟩

theorem eq_ok_of_toOption {ε α : Type} {x : Except ε α} {a : α} (h : x.toOption = some a) :
    x = .ok a := by
  cases x with
  | error e => cases h
  | ok b => exact congrArg Except.ok (Option.some.inj h)

/-- A step ends with a good result, or is refused with an error of a kind. -/
def Ends {ε α : Type} (refused : ε → Prop) (x : Except ε α) (good : α → Prop) : Prop :=
  match x with
  | .ok a => good a
  | .error e => refused e

namespace Ends

variable {ε α β : Type} {refused refused' : ε → Prop} {x : Except ε α} {f : α → Except ε β}
  {good good' : α → Prop} {good₂ : β → Prop}

theorem bind (h : Ends refused x good) (hf : ∀ a, good a → Ends refused (f a) good₂) :
    Ends refused (x >>= f) good₂ := by
  cases x with
  | ok a => exact hf a h
  | error e => exact h

/-- Steps with a state, one after the other. -/
theorem bindAt {σ : Type} {step : StateT σ (Except ε) α} {next : α → StateT σ (Except ε) β} {s : σ}
    {good : α × σ → Prop} {good₂ : β × σ → Prop} (h : Ends refused (step s) good)
    (hn : ∀ r, good r → Ends refused (next r.1 r.2) good₂) :
    Ends refused ((step >>= next) s) good₂ := h.bind hn

theorem map {g : α → β} (h : Ends refused x fun a => good₂ (g a)) :
    Ends refused (x.map g) good₂ := by
  cases x with
  | ok a => exact h
  | error e => exact h

theorem mono (h : Ends refused x good) (hg : ∀ a, good a → good' a) : Ends refused x good' := by
  cases x with
  | ok a => exact hg a h
  | error e => exact h

/-- What is known of a result, together with where it is from. -/
theorem self (h : Ends refused x good) : Ends refused x fun a => x = .ok a ∧ good a := by
  cases x with
  | ok a => exact ⟨rfl, h⟩
  | error e => exact h

theorem of_ok (h : Ends refused x good) {a : α} (hx : x = .ok a) : good a := by
  rw [hx] at h
  exact h

theorem of_error (h : Ends refused x good) {e : ε} (hx : x = .error e) : refused e := by
  rw [hx] at h
  exact h

end Ends

/-- A step gives a good result just if something holds; otherwise it is refused. -/
def GivesIff {ε α : Type} (accepted : Prop) (x : Except ε α) (good : α → Prop) : Prop :=
  (accepted ∧ ∃ a, x = .ok a ∧ good a) ∨ (¬accepted ∧ ∃ e, x = .error e)

namespace GivesIff

variable {ε α β : Type} {p q : Prop} {x : Except ε α} {f : α → Except ε β} {good good' : α → Prop}
  {good₂ : β → Prop} {a : α}

theorem of_ok (h : x = .ok a) (hg : good a) : GivesIff True x good := .inl ⟨trivial, a, h, hg⟩

theorem of_error {e : ε} (hp : ¬p) (h : x = .error e) : GivesIff p x good := .inr ⟨hp, e, h⟩

theorem bind (h : GivesIff p x good) (hf : ∀ a, good a → GivesIff q (f a) good₂) :
    GivesIff (p ∧ q) (x >>= f) good₂ := by
  rcases h with ⟨hp, a, rfl, ha⟩ | ⟨hp, e, rfl⟩
  · rcases hf a ha with ⟨hq, b, hb, hg⟩ | ⟨hq, e, he⟩
    · exact .inl ⟨⟨hp, hq⟩, b, hb, hg⟩
    · exact .inr ⟨fun h => hq h.2, e, he⟩
  · exact .inr ⟨fun h => hp h.1, e, rfl⟩

/-- Steps with a state, one after the other. -/
theorem bindAt {σ : Type} {step : StateT σ (Except ε) α} {next : α → StateT σ (Except ε) β} {s : σ}
    {good : α × σ → Prop} {good₂ : β × σ → Prop} (h : GivesIff p (step s) good)
    (hn : ∀ r, good r → GivesIff q (next r.1 r.2) good₂) :
    GivesIff (p ∧ q) ((step >>= next) s) good₂ := h.bind hn

theorem mono (h : GivesIff p x good) (hg : ∀ a, good a → good' a) : GivesIff p x good' :=
  h.imp_left fun ⟨hp, a, hx, ha⟩ => ⟨hp, a, hx, hg a ha⟩

theorem congr (h : GivesIff p x good) (hpq : p ↔ q) : GivesIff q x good := by
  rwa [GivesIff, hpq] at h

theorem exists_ok (h : GivesIff p x good) (hp : p) : ∃ a, x = .ok a ∧ good a :=
  h.elim (·.2) fun hn => absurd hp hn.1

end GivesIff

end ModernControls
