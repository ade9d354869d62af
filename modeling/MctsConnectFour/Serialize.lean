/-
Saving and loading the states of the games (connect_four.hpp, oska.hpp).

`save ( )` and `load ( )` hand the state to an archive, which hands itself
to the member `serialize` of the state. That member does not name the
fields: it hands the state back to the archive. So neither function
returns, whatever the state, and nothing is ever written.

What the archives do with plain values is not modelled, since it does not
come to that.
-/
import MctsConnectFour.Games
import MctsConnectFour.Lib.Dispatch

namespace MctsConnectFour

open Codec (Archiving dispatch)

/-- The files under `g_app_data_path`, by their names. -/
abbrev Files := String → Option (List UInt8)

namespace ConnectFour

variable {NumRows NumCols : Nat} {σ : Type}

/-- `serialize ( )`: `ar_ ( * this )`. -/
def serialize (ar : Archiving (State NumRows NumCols) σ) : Archiving (State NumRows NumCols) σ :=
  fun s => ar s

/-- The file a state is saved to. -/
def stateFile : String := "connect_four_state.cereal"

/-- `save ( )`: opening the file empties it. -/
def save (fuel : Nat) (s : State NumRows NumCols) (files : Files) : Option Files :=
  (dispatch serialize fuel s []).map fun x path =>
    if path = stateFile then some x.2 else files path

/-- `load ( )`, called on `t`. -/
def load (fuel : Nat) (t : State NumRows NumCols) (files : Files) : Option (State NumRows NumCols) :=
  (dispatch serialize fuel t ((files stateFile).getD [])).map Prod.fst

/-- What is saved can be loaded, into any other state. -/
def Restores (s : State NumRows NumCols) : Prop :=
  ∀ (files : Files) (t : State NumRows NumCols), ∃ fuel files',
    save fuel s files = some files' ∧ ∃ fuel', load fuel' t files' = some s

end ConnectFour

namespace Oska

variable {S : Nat} {σ : Type}

/-- `serialize ( )`: `ar_ ( * this )`. -/
def serialize (ar : Archiving (State S) σ) : Archiving (State S) σ := fun s => ar s

/-- What is written to an archive can be read back, into any other
state. -/
def Restores (s : State S) : Prop :=
  ∀ t : State S, ∃ fuel x, dispatch serialize fuel s ([] : List UInt8) = some x
    ∧ ∃ fuel' rest, dispatch serialize fuel' t x.2 = some (s, rest)

end Oska

-- ============================================================== no return

/-- Neither archive comes back from a state of Connect Four. -/
theorem ConnectFour.dispatch_serialize {NumRows NumCols : Nat} {σ : Type} (fuel : Nat)
    (s : ConnectFour.State NumRows NumCols) (x : σ) :
    dispatch ConnectFour.serialize fuel s x = none :=
  Codec.dispatch_eq_none (fun _ h => h) fuel s x

/-- Nor from one of Oska. -/
theorem Oska.dispatch_serialize {S : Nat} {σ : Type} (fuel : Nat) (s : Oska.State S) (x : σ) :
    dispatch Oska.serialize fuel s x = none :=
  Codec.dispatch_eq_none (fun _ h => h) fuel s x

namespace ConnectFour

variable {NumRows NumCols : Nat} (s : State NumRows NumCols) (fuel : Nat) (files : Files)

theorem save_eq_none : save fuel s files = none := by
  unfold save
  rw [dispatch_serialize]
  rfl

theorem load_eq_none : load fuel s files = none := by
  unfold load
  rw [dispatch_serialize]
  rfl

end ConnectFour

/-- `save ( )` and `load ( )` return for no state of Connect Four, writing
and reading for none of Oska; so no state is ever restored. -/
theorem never_restores {NumRows NumCols S : Nat} (s : ConnectFour.State NumRows NumCols)
    (s' : Oska.State S) :
    (¬ ConnectFour.Restores s ∧ ∀ (fuel : Nat) (files : Files),
        ConnectFour.save fuel s files = none ∧ ConnectFour.load fuel s files = none)
      ∧ ¬ Oska.Restores s'
      ∧ ∀ (fuel : Nat) (x : List UInt8), dispatch Oska.serialize fuel s' x = none := by
  refine ⟨⟨?_, ?_⟩, ?_, ?_⟩
  · intro h
    obtain ⟨fuel, files, hrun, -⟩ := h (fun _ => none) s
    rw [ConnectFour.save_eq_none] at hrun
    cases hrun
  · intro fuel files
    exact ⟨ConnectFour.save_eq_none s fuel files, ConnectFour.load_eq_none s fuel files⟩
  · intro h
    obtain ⟨fuel, x, hrun, -⟩ := h s'
    rw [Oska.dispatch_serialize] at hrun
    cases hrun
  · intro fuel x
    exact Oska.dispatch_serialize fuel s' x

/-- A new state on the default board is one that is not restored. -/
theorem new_not_restored :
    ¬ ∀ s : ConnectFour.State 6 7,
      (ConnectFour.game ConnectFour.defaultKeys).Mixed
          (ConnectFour.new ConnectFour.defaultKeys .agent) s → ConnectFour.Restores s := by
  intro hall
  obtain ⟨fuel, files, hrun, -⟩ := hall _ .start (fun _ => none)
    (ConnectFour.new ConnectFour.defaultKeys .human)
  rw [ConnectFour.save_eq_none] at hrun
  cases hrun

end MctsConnectFour
