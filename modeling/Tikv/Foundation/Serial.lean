import Mathlib.Data.List.Basic

/-!
# Self-delimiting encodings

A `Serial` writes values so that they can be read back whatever follows them. Numbers, pairs and
lists of values that can be written can be written, and so can everything that is given by such
values (`ofPartialInv`).
-/

namespace Tikv

open Option List

universe u v w

/-- A way to write values that can be read back whatever follows them. -/
structure Serial (β : Type u) (α : Type v) where
  write : α → List β
  read : List β → Option (α × List β)
  read_write : ∀ a rest, read (write a ++ rest) = some (a, rest)

namespace Serial

variable {β : Type u} {α : Type v} {γ : Type w}

/-- One symbol. -/
def symbol : Serial β β where
  write b := [b]
  read
    | [] => none
    | b :: rest => some (b, rest)
  read_write _ _ := rfl

/-- The number of symbols before the first one that ends the number. -/
def readNat (stop : β → Bool) : List β → Option (ℕ × List β)
  | [] => none
  | b :: rest => if stop b then some (0, rest) else (readNat stop rest).map fun r => (r.1 + 1, r.2)

theorem readNat_replicate {stop : β → Bool} {one zero : β} (hone : stop one = false)
    (hzero : stop zero = true) (n : ℕ) (rest : List β) :
    readNat stop (replicate n one ++ zero :: rest) = some (n, rest) := by
  induction n with
  | zero => simp [readNat, hzero]
  | succ n ih => simp [replicate_succ, readNat, hone, ih]

/-- A number in unary. -/
def nat (stop : β → Bool) (one zero : β) (hone : stop one = false) (hzero : stop zero = true) :
    Serial β ℕ where
  write n := replicate n one ++ [zero]
  read := readNat stop
  read_write n rest := by
    rw [append_assoc]
    exact readNat_replicate hone hzero n rest

def prod (A : Serial β α) (C : Serial β γ) : Serial β (α × γ) where
  write p := A.write p.1 ++ C.write p.2
  read b := (A.read b).bind fun a => (C.read a.2).map fun c => ((a.1, c.1), c.2)
  read_write p rest := by
    rw [append_assoc, A.read_write, bind_some, C.read_write, map_some]

/-- Read so many values. -/
def readList (A : Serial β α) : ℕ → List β → Option (List α × List β)
  | 0, b => some ([], b)
  | n + 1, b => (A.read b).bind fun a => (readList A n a.2).map fun as => (a.1 :: as.1, as.2)

theorem readList_flatMap (A : Serial β α) (as : List α) (rest : List β) :
    readList A as.length (as.flatMap A.write ++ rest) = some (as, rest) := by
  induction as with
  | nil => rfl
  | cons a as ih =>
    rw [length_cons, readList, flatMap_cons, append_assoc, A.read_write,
      bind_some, ih, map_some]

/-- The number of values, then the values. -/
def list (N : Serial β ℕ) (A : Serial β α) : Serial β (List α) where
  write as := N.write as.length ++ as.flatMap A.write
  read b := (N.read b).bind fun n => readList A n.1 n.2
  read_write as rest := by
    rw [append_assoc, N.read_write, bind_some, readList_flatMap]

/-- Write a value as another one that it can be found from. -/
def ofPartialInv (A : Serial β α) (f : γ → α) (g : α → Option γ) (hg : ∀ c, g (f c) = some c) :
    Serial β γ where
  write c := A.write (f c)
  read b := (A.read b).bind fun a => (g a.1).map fun c => (c, a.2)
  read_write c rest := by
    rw [A.read_write, bind_some, hg, map_some]

end Serial

end Tikv
