import Mathlib.Data.List.Basic

/-!
# Runs of a machine

A machine is a step function, from a state and an event to the next state, and a run of
it is a list of events.
-/

namespace Fathom.Lib

variable {S E : Type} {step : S → E → S} {P Q : S → E → Prop} {I : S → Prop} {s : S}

def Along (step : S → E → S) (P : S → E → Prop) : S → List E → Prop
  | _, [] => True
  | s, e :: rest => P s e ∧ Along step P (step s e) rest

instance Along.decidable [∀ s e, Decidable (P s e)] (s : S) (events : List E) :
    Decidable (Along step P s events) :=
  match events with
  | [] => isTrue trivial
  | e :: rest =>
    haveI := Along.decidable (step s e) rest
    inferInstanceAs (Decidable (P s e ∧ Along step P (step s e) rest))

theorem along_congr (h : ∀ s e, P s e ↔ Q s e) (s : S) (events : List E) :
    Along step P s events ↔ Along step Q s events := by
  induction events generalizing s with
  | nil => exact Iff.rfl
  | cons e _ ih => exact and_congr (h s e) (ih (step s e))

theorem along_of_invariant (hstep : ∀ s e, I s → P s e → I (step s e))
    (h : ∀ s e, I s → P s e → Q s e) (hs : I s) {events : List E} (hP : Along step P s events) :
    Along step Q s events := by
  induction events generalizing s with
  | nil => trivial
  | cons e _ ih => exact ⟨h s e hs hP.1, ih (hstep s e hs hP.1) hP.2⟩

theorem along_congr_within {R : S → E → Prop} {J : S → Prop}
    (hkeeps : ∀ s e, J s → R s e → J (step s e))
    (h : ∀ s e, J s → R s e → (P s e ↔ Q s e)) {events : List E} (hs : J s)
    (hR : Along step R s events) : Along step P s events ↔ Along step Q s events := by
  induction events generalizing s with
  | nil => exact Iff.rfl
  | cons e _ ih => exact and_congr (h s e hs hR.1) (ih (hkeeps s e hs hR.1) hR.2)

def Throughout (step : S → E → S) (I : S → Prop) (s : S) (events : List E) : Prop :=
  ∀ seen, seen <+: events → I (seen.foldl step s)

theorem throughout_nil : Throughout step I s [] ↔ I s := by simp [Throughout]

theorem throughout_cons {e : E} {rest : List E} :
    Throughout step I s (e :: rest) ↔ I s ∧ Throughout step I (step s e) rest := by
  constructor
  · intro h
    refine ⟨h [] List.nil_prefix, fun seen hseen => ?_⟩
    exact h (e :: seen) (List.cons_prefix_cons.mpr ⟨rfl, hseen⟩)
  · rintro ⟨hs, hrest⟩ seen hseen
    cases seen with
    | nil => exact hs
    | cons e' seen =>
      obtain ⟨rfl, hprefix⟩ := List.cons_prefix_cons.mp hseen
      exact hrest seen hprefix

theorem throughout_iff_along_within {R : S → E → Prop} {J : S → Prop}
    (hkeeps : ∀ s e, J s → R s e → J (step s e))
    (h : ∀ s e, J s → R s e → I s → (I (step s e) ↔ P s e)) {s : S} {events : List E}
    (hs : J s) (hR : Along step R s events) :
    Throughout step I s events ↔ I s ∧ Along step P s events := by
  induction events generalizing s with
  | nil => simp [throughout_nil, Along]
  | cons e _ ih =>
    rw [throughout_cons, ih (hkeeps s e hs hR.1) hR.2]
    exact and_congr_right fun hI => and_congr_left fun _ => h s e hs hR.1 hI

theorem along_true (s : S) (events : List E) : Along step (fun _ _ => True) s events := by
  induction events generalizing s with
  | nil => trivial
  | cons e _ ih => exact ⟨trivial, ih (step s e)⟩

end Fathom.Lib
