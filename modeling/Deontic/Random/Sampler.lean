import Deontic.Fault
import Deontic.Record

/-! Random programs as data.  A sampler ends in a result or a failure, or makes a choice at an
address and goes on with the value chosen there.  One sampler can be run on fresh draws, on given
values or on a mixture of them, because it says what it chooses and not how.  A program that may
recurse without bound is a family of samplers, cut after a number of nested calls. -/

namespace Deontic

/-- A random program with results in `α`. -/
inductive Sampler (P : Type) (α : Type) where
  | pure (result : α)
  | fail (fault : Fault)
  | note (record : Record) (rest : Sampler P α)
  | choose (address : Path) (dist : Distribution P) (next : Value → Sampler P α)

abbrev Program (P : Type) (α : Type) := Nat → Sampler P α

namespace Sampler

variable {P α β γ : Type}

instance : Inhabited (Sampler P α) := ⟨fail default⟩

def bind : Sampler P α → (α → Sampler P β) → Sampler P β
  | pure result, f => f result
  | fail fault, _ => fail fault
  | note record rest, f => note record (rest.bind f)
  | choose address dist next, f => choose address dist fun value => (next value).bind f

instance : Monad (Sampler P) where
  pure := pure
  bind := bind

def ofExcept : Except Fault α → Sampler P α
  | .ok result => pure result
  | .error fault => fail fault

instance : MonadLift (Except Fault) (Sampler P) := ⟨ofExcept⟩

instance {ε : Type} [MonadLift (Except ε) (Except Fault)] : MonadLift (Except ε) (Sampler P) where
  monadLift result := ofExcept (MonadLift.monadLift result : Except Fault _)

def under (key : Value) : Sampler P α → Sampler P α
  | pure result => pure result
  | fail fault => fail fault
  | note record rest => note record (rest.under key)
  | choose address dist next => choose (key :: address) dist fun value => (next value).under key

def sample (key : Value) (dist : Distribution P) : Sampler P Value :=
  choose [key] dist pure

def tell (record : Record) : Sampler P Unit := note record (pure ())

@[simp] theorem bind_pure (s : Sampler P α) : s.bind pure = s := by
  induction s with
  | pure => rfl
  | fail => rfl
  | note record rest ih => rw [bind, ih]
  | choose address dist next ih => rw [bind]; congr; funext value; exact ih value

theorem bind_assoc (s : Sampler P α) (f : α → Sampler P β) (g : β → Sampler P γ) :
    (s.bind f).bind g = s.bind fun a => (f a).bind g := by
  induction s with
  | pure => rfl
  | fail => rfl
  | note record rest ih => simp only [bind, ih]
  | choose address dist next ih => simp only [bind, ih]

instance : LawfulMonad (Sampler P) := .mk' _ bind_pure (fun _ _ => rfl) bind_assoc

/-- Placing addresses below a key distributes over sequence. -/
theorem under_bind (key : Value) (s : Sampler P α) (f : α → Sampler P β) :
    (s.bind f).under key = (s.under key).bind fun a => (f a).under key := by
  induction s with
  | pure => rfl
  | fail => rfl
  | note record rest ih => simp only [bind, under, ih]
  | choose address dist next ih => simp only [bind, under, ih]

end Sampler

end Deontic
