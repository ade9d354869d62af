/-
Values written to a stream and read back from it.

A reader takes what it needs from the front of a stream, of bytes or of
other units, and leaves the rest. `Reads r out a` is the judgement about
readers: wherever `out` stands in front of something, `r` takes `out`
and nothing else, and returns `a`. There is a rule for each way of
putting a reader together (`Reads.pure`, `Reads.bind`, `Reads.list`), so
that what is read back is proved along the reader's own text. A `Codec`
is a writer and a reader that belong together.
-/
import Mathlib.Data.List.Forall2
import Mathlib.Tactic.Common

namespace Codec

/-- What takes a value from the front of a stream; `none` is the end of
the stream, or something else than expected. -/
abbrev Reader (β α : Type) : Type := StateT (List β) Option α

variable {β α γ : Type}

/-- `r` reads `a` from exactly `out`. -/
def Reads (r : Reader β α) (out : List β) (a : α) : Prop :=
  ∀ rest, r (out ++ rest) = some (a, rest)

theorem Reads.pure (a : α) : Reads (pure a : Reader β α) [] a := fun _ => rfl

theorem Reads.bind {r : Reader β α} {k : α → Reader β γ} {out out' : List β} {a : α} {c : γ}
    (h : Reads r out a) (hk : Reads (k a) out' c) : Reads (r >>= k) (out ++ out') c := by
  intro rest
  show (r (out ++ out' ++ rest)).bind (fun x => k x.1 x.2) = _
  rw [List.append_assoc, h, Option.bind_some]
  exact hk rest

/-- A last step that reads nothing more. -/
theorem Reads.last {r : Reader β α} {k : α → Reader β γ} {out : List β} {a : α} {c : γ}
    (h : Reads r out a) (hk : k a = Pure.pure c) : Reads (r >>= k) out c := by
  have hbind := h.bind (hk ▸ Reads.pure c)
  rwa [List.append_nil] at hbind

/-- A last step that only puts the value together. -/
theorem Reads.map {r : Reader β α} {out : List β} {a : α} (f : α → γ) (h : Reads r out a) :
    Reads (r >>= fun a => Pure.pure (f a)) out (f a) :=
  h.last rfl

/-- `n` values in a row. -/
def readList (r : Reader β α) : Nat → Reader β (List α)
  | 0 => pure []
  | n + 1 => do
      let a ← r
      let l ← readList r n
      pure (a :: l)

/-- The list rule: elements that are read back to related ones make lists
that are. -/
theorem Reads.list {δ : Type} {r : Reader β α} {write : δ → List β} {R : δ → α → Prop} :
    ∀ {l : List δ}, (∀ d ∈ l, ∃ a, Reads r (write d) a ∧ R d a) →
      ∃ l', Reads (readList r l.length) (l.flatMap write) l' ∧ List.Forall₂ R l l' := by
  intro l
  induction l with
  | nil =>
      intro _
      exact ⟨[], Reads.pure [], .nil⟩
  | cons d l ih =>
      intro h
      obtain ⟨a, ha, hrel⟩ := h d (List.mem_cons_self ..)
      obtain ⟨l', hl', hrels⟩ := ih fun d' hd' => h d' (List.mem_cons_of_mem _ hd')
      exact ⟨a :: l', ha.bind (hl'.map _), .cons hrel hrels⟩

/-- The same for elements that are read back as they were. -/
theorem Reads.list_eq {r : Reader β α} {write : α → List β} {l : List α}
    (h : ∀ a ∈ l, Reads r (write a) a) : Reads (readList r l.length) (l.flatMap write) l := by
  obtain ⟨l', hl', heq⟩ := Reads.list (R := Eq) fun a ha => ⟨a, h a ha, rfl⟩
  rw [List.forall₂_eq_eq_eq] at heq
  rwa [← heq] at hl'

end Codec

/-- A way of writing values and reading them back. -/
structure Codec (β α : Type) where
  write : α → List β
  read : Codec.Reader β α
  reads : ∀ a, Codec.Reads read (write a) a
