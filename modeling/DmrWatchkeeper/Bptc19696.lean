import Mathlib.Algebra.GroupWithZero.Nat
import Mathlib.Data.Fin.VecNotation

/-! The BPTC(196,96) decoder of `bptc19696.cpp`. Intermediate arrays hold one
bit per element there (`uint8_t`, 0 or 1), so they are vectors of `Bool` here;
the received dibits stay bytes. Loops over rows and columns run in source
order on the flat 196-bit matrix. -/
namespace DmrWatchkeeper.Bptc19696

/-! Positions in words and matrices are written as numerals. -/

instance neZero_parity : NeZero 4 := ⟨by decide⟩
instance neZero_column : NeZero 13 := ⟨by decide⟩
instance neZero_row : NeZero 15 := ⟨by decide⟩
instance neZero_matrix : NeZero 196 := ⟨by decide⟩

/-- `kRow15ErrPos`: syndrome to array index, `-1` where there is none. -/
def kRow15ErrPos : Vector Int 16 :=
  #v[-1, 11, 12, 0, 13, 1, 2, 3, 14, 4, 5, 6, 7, 8, 9, 10]

/-- `kCol13ErrPos`: the shortened code has no position for syndromes 14, 15. -/
def kCol13ErrPos : Vector Int 16 :=
  #v[-1, 9, 10, 0, 11, 1, 2, 3, 12, 4, 5, 6, 7, 8, -1, -1]

/-- `received[2k]` is the high bit of dibit `k`, `received[2k+1]` the low bit. -/
def unpackDibits (dibits : Vector UInt8 98) : Vector Bool 196 :=
  Vector.ofFn fun i =>
    let d := dibits[i.val / 2]
    if i.val % 2 = 0 then (d >>> 1) &&& 1 == 1 else d &&& 1 == 1

/-- `out[k] = in[(k * 13) % 196]` -/
def deinterleave (received : Vector Bool 196) : Vector Bool 196 :=
  Vector.ofFn fun k => received[(k.val * 13) % 196]

/-- What distinguishes `correct_row` from `correct_col`: which data bits each
parity bit covers, where that parity bit sits, and the error-position table. -/
structure HammingCheck (n : Nat) where
  covers : Fin 4 → List (Fin n)
  parity : Fin 4 → Fin n
  errPos : Vector Int 16

namespace HammingCheck
variable {n : Nat}

theorem parity_lt (check : HammingCheck n) (j : Fin 4) : (check.parity j).val < n := (check.parity j).isLt

/-- `w[i0] ^ w[i1] ^ ...` -/
def xorOf (word : Vector Bool n) (positions : List (Fin n)) : Bool :=
  (positions.map fun i => getElem word i i.isLt).foldr (· ^^ ·) false

/-- One syndrome bit: computed parity against received parity. -/
def syndromeBit (check : HammingCheck n) (word : Vector Bool n) (j : Fin 4) : Bool :=
  xorOf word (check.covers j) ^^ word[check.parity j]

def syndrome (check : HammingCheck n) (word : Vector Bool n) : Nat :=
  (check.syndromeBit word 0).toNat ||| ((check.syndromeBit word 1).toNat <<< 1)
    ||| ((check.syndromeBit word 2).toNat <<< 2) ||| ((check.syndromeBit word 3).toNat <<< 3)

/-- The common body: zero syndrome, unlisted syndrome, or one flipped bit. -/
def correct (check : HammingCheck n) (word : Vector Bool n) : Vector Bool n × Bool :=
  let s := check.syndrome word
  if s = 0 then (word, true)
  else
    let pos := check.errPos.getD (s &&& 0xF) (-1)
    if pos < 0 then (word, false)
    else (word.setIfInBounds pos.toNat (!word.getD pos.toNat false), true)

end HammingCheck

/-- Hamming(15,11): data bits 0 to 10, parity bits 11 to 14. -/
def rowCheck : HammingCheck 15 where
  covers := ![[0, 1, 3, 4, 6, 8, 10], [0, 2, 3, 5, 6, 9, 10], [1, 2, 3, 7, 8, 9, 10],
    [4, 5, 6, 7, 8, 9, 10]]
  parity := ![11, 12, 13, 14]
  errPos := kRow15ErrPos

/-- Hamming(13,9): data rows 0 to 8, parity rows 9 to 12. -/
def colCheck : HammingCheck 13 where
  covers := ![[0, 1, 3, 4, 6, 8], [0, 2, 3, 5, 6], [1, 2, 3, 7, 8], [4, 5, 6, 7, 8]]
  parity := ![9, 10, 11, 12]
  errPos := kCol13ErrPos

def correctRow (row : Vector Bool 15) : Vector Bool 15 × Bool := rowCheck.correct row

def correctCol (col : Vector Bool 13) : Vector Bool 13 × Bool := colCheck.correct col

/-- `matrix_flat[r * 15 + c]`; index 195 is the padding bit. -/
def mat (r : Fin 13) (c : Fin 15) : Fin 196 := ⟨r * 15 + c, by omega⟩

theorem mat_lt (r : Fin 13) (c : Fin 15) : (mat r c).val < 196 := (mat r c).isLt

def loadRow (m : Vector Bool 196) (r : Fin 13) : Vector Bool 15 :=
  Vector.ofFn fun c => m[mat r c]

def storeRow (m : Vector Bool 196) (r : Fin 13) (row : Vector Bool 15) : Vector Bool 196 :=
  Fin.foldl 15 (fun m c => m.set (mat r c) row[c]) m

def loadCol (m : Vector Bool 196) (c : Fin 15) : Vector Bool 13 :=
  Vector.ofFn fun r => m[mat r c]

def storeCol (m : Vector Bool 196) (c : Fin 15) (col : Vector Bool 13) : Vector Bool 196 :=
  Fin.foldl 13 (fun m r => m.set (mat r c) col[r]) m

/-- The body of steps 3 and 5 on one of rows 0 to 8; a refusal clears `ok`. -/
def rowStep (state : Vector Bool 196 × Bool) (i : Fin 9) : Vector Bool 196 × Bool :=
  let r : Fin 13 := i.castLE (by decide)
  let (row, good) := correctRow (loadRow state.1 r)
  (storeRow state.1 r row, state.2 && good)

def rowPass (state : Vector Bool 196 × Bool) : Vector Bool 196 × Bool :=
  Fin.foldl 9 rowStep state

/-- The body of step 4 on one of columns 0 to 14. -/
def colStep (state : Vector Bool 196 × Bool) (c : Fin 15) : Vector Bool 196 × Bool :=
  let (col, good) := correctCol (loadCol state.1 c)
  (storeCol state.1 c col, state.2 && good)

def colPass (state : Vector Bool 196 × Bool) : Vector Bool 196 × Bool :=
  Fin.foldl 15 colStep state

/-- Step 6: output bit `k` is row `k / 11`, column `k % 11`; positions 96 to 98
of the data area are dummies and are not output. -/
def extract (m : Vector Bool 196) : Vector Bool 96 :=
  Vector.ofFn fun k => m[mat ⟨k / 11, by omega⟩ ⟨k % 11, by omega⟩]

/-- The matrix from which the output bits are taken, and the `ok` flag, which
the second row pass leaves alone. -/
def decodeMatrix (received : Vector Bool 196) : Vector Bool 196 × Bool :=
  let corrected := colPass (rowPass (deinterleave received, true))
  ((rowPass corrected).1, corrected.2)

/-- `decode(dibits, bits_out)`: the output bits and the returned verdict. -/
def decode (dibits : Vector UInt8 98) : Vector Bool 96 × Bool :=
  let final := decodeMatrix (unpackDibits dibits)
  (extract final.1, final.2)

private theorem parts {α β : Type} {p : α × β} {a : α} {b : β} (same : p = (a, b)) :
    p.1 = a ∧ p.2 = b := by
  rw [same]
  exact ⟨rfl, rfl⟩

/-- The two results of the matrix decoder, pass by pass. -/
theorem decodeMatrix_parts (received : Vector Bool 196) :
    (decodeMatrix received).1 = (rowPass (colPass (rowPass (deinterleave received, true)))).1 ∧
      (decodeMatrix received).2 = (colPass (rowPass (deinterleave received, true))).2 := parts rfl

theorem decode_parts (dibits : Vector UInt8 98) :
    (decode dibits).1 = extract (decodeMatrix (unpackDibits dibits)).1 ∧
      (decode dibits).2 = (decodeMatrix (unpackDibits dibits)).2 := parts rfl

end DmrWatchkeeper.Bptc19696
