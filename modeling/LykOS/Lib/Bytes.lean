import Mathlib.Data.List.Basic
import Mathlib.Tactic.Ring

/-!
# Bytes

Little-endian numbers (`ofNat`, `toNat`), reads of several bytes from a memory that ends (`read`),
numbers read from and bytes written to a memory without an end (`le`, `put`), and the bytes of a memory
that is given by its words (`byteAt`, `setByte`, `copy`).
-/

namespace Bytes

open Function List

/-- The `n` low bytes of `v`, the lowest first. -/
def ofNat : ℕ → ℕ → List UInt8
  | 0, _ => []
  | n + 1, v => UInt8.ofNat (v % 256) :: ofNat n (v / 256)

/-- The number of a list of bytes, the lowest first. -/
def toNat : List UInt8 → ℕ
  | [] => 0
  | b :: l => b.toNat + 256 * toNat l

/-- The `n` bytes at `p`, if the memory has them. -/
def read (mem : List UInt8) (p n : ℕ) : Option (List UInt8) :=
  if p + n ≤ mem.length then some ((mem.drop p).take n) else none

@[simp] theorem length_ofNat (n v : ℕ) : (ofNat n v).length = n := by
  induction n generalizing v with
  | zero => rfl
  | succ n ih => rw [ofNat, length_cons, ih]

theorem toNat_ofNat (n v : ℕ) : toNat (ofNat n v) = v % 256 ^ n := by
  induction n generalizing v with
  | zero => rw [ofNat, toNat, pow_zero, Nat.mod_one]
  | succ n ih =>
    have hb : (UInt8.ofNat (v % 256)).toNat = v % 256 :=
      UInt8.toNat_ofNat_of_lt (Nat.mod_lt v (by decide))
    rw [ofNat, toNat, hb, ih, pow_succ', Nat.mod_mul]

theorem ofNat_toNat (l : List UInt8) : ofNat l.length (toNat l) = l := by
  induction l with
  | nil => rfl
  | cons b l ih =>
    have hb := b.toNat_lt
    have hlow : (b.toNat + 256 * toNat l) % 256 = b.toNat := by omega
    have hhigh : (b.toNat + 256 * toNat l) / 256 = toNat l := by omega
    rw [length_cons, toNat, ofNat, hlow, hhigh, UInt8.ofNat_toNat, ih]

theorem toNat_lt (l : List UInt8) : toNat l < 256 ^ l.length := by
  induction l with
  | nil => exact Nat.one_pos
  | cons b l ih =>
    have hb := b.toNat_lt
    rw [toNat, length_cons, pow_succ']
    omega

theorem read_append (pre l post : List UInt8) :
    read (pre ++ (l ++ post)) pre.length l.length = some l := by
  unfold read
  rw [if_pos (by simp only [length_append]; omega), drop_left, take_left]

/-! ## Memory without an end -/

/-- The number in the `n` bytes at `p`. -/
def le (mem : ℕ → UInt8) (p n : ℕ) : ℕ := toNat ((List.range n).map fun k => mem (p + k))

theorem le_lt (mem : ℕ → UInt8) (p n : ℕ) : le mem p n < 256 ^ n := by
  have hlt := toNat_lt ((List.range n).map fun k => mem (p + k))
  rwa [length_map, length_range] at hlt

/-- The memory with `bs` written at `p`. -/
def put (mem : ℕ → UInt8) (p : ℕ) (bs : List UInt8) : ℕ → UInt8 := fun a =>
  if p ≤ a then bs[a - p]?.getD (mem a) else mem a

theorem put_add (mem : ℕ → UInt8) (p : ℕ) (bs : List UInt8) (k : ℕ) :
    put mem p bs (p + k) = bs[k]?.getD (mem (p + k)) := by
  rw [put, if_pos (Nat.le_add_right p k), Nat.add_sub_cancel_left]

variable {a n p : ℕ} {word : ℕ → ℕ} {mem : ℕ → UInt8}

theorem put_of_disjoint {bs : List UInt8} (h : a < p ∨ p + bs.length ≤ a) :
    put mem p bs a = mem a := by
  unfold put
  split_ifs with hp
  · rw [getElem?_eq_none (by omega), Option.getD_none]
  · rfl

theorem put_cons (mem : ℕ → UInt8) (p : ℕ) (b : UInt8) (bs : List UInt8) :
    put mem p (b :: bs) = put (update mem p b) (p + 1) bs := by
  funext a
  rcases Nat.lt_trichotomy a p with ha | rfl | ha
  · rw [put_of_disjoint (Or.inl ha), put_of_disjoint (Or.inl (by omega)), update_of_ne (Nat.ne_of_lt ha)]
  · rw [put_of_disjoint (Or.inl (Nat.lt_succ_self a)), update_self]
    exact put_add mem a (b :: bs) 0
  · obtain ⟨k, rfl⟩ := Nat.exists_eq_add_of_lt ha
    rw [show p + k + 1 = p + (k + 1) by omega, put_add, show p + (k + 1) = p + 1 + k by omega, put_add,
      update_of_ne (by omega), getElem?_cons_succ]

theorem le_congr {mem' : ℕ → UInt8} (h : ∀ k < n, mem (p + k) = mem' (p + k)) :
    le mem p n = le mem' p n := by
  unfold le
  rw [map_congr_left fun k hk => h k (mem_range.mp hk)]

theorem le_put_add {bs : List UInt8} {k : ℕ} (h : k + n ≤ bs.length) :
    le (put mem p bs) (p + k) n = toNat ((bs.drop k).take n) := by
  have hmap : (List.range n).map (fun i => put mem p bs (p + k + i)) = (bs.drop k).take n := by
    apply ext_getElem
    · rw [length_map, length_range, length_take, length_drop]
      omega
    · intro i hi _
      rw [length_map, length_range] at hi
      rw [getElem_map, getElem_range, Nat.add_assoc, put_add,
        getElem?_eq_getElem (show k + i < bs.length by omega), Option.getD_some, getElem_take, getElem_drop]
  rw [le, hmap]

theorem le_put (mem : ℕ → UInt8) (p : ℕ) (bs : List UInt8) :
    le (put mem p bs) p bs.length = toNat bs := by
  have hle : le (put mem p bs) (p + 0) bs.length = _ := le_put_add (by rw [Nat.zero_add])
  rwa [drop_zero, take_length] at hle

theorem le_put_ofNat (mem : ℕ → UInt8) (p n v : ℕ) : le (put mem p (ofNat n v)) p n = v % 256 ^ n := by
  have hle := le_put mem p (ofNat n v)
  rwa [length_ofNat, toNat_ofNat] at hle

theorem le_put_of_disjoint {q : ℕ} {bs : List UInt8} (h : q + n ≤ p ∨ p + bs.length ≤ q) :
    le (put mem p bs) q n = le mem q n :=
  le_congr fun k hk => put_of_disjoint (by omega)

/-! ## Memory of words -/

/-- The byte at `a`, in the aligned word of eight bytes that holds it. -/
def byteAt (word : ℕ → ℕ) (a : ℕ) : UInt8 := (ofNat 8 (word (a / 8 * 8))).getD (a % 8) 0

/-- The memory with `v` written at `a`. -/
def setByte (word : ℕ → ℕ) (a : ℕ) (v : UInt8) : ℕ → ℕ :=
  Function.update word (a / 8 * 8) (toNat ((ofNat 8 (word (a / 8 * 8))).set (a % 8) v))

/-- The memory after `n` rounds of a byte by byte copy from `src` to `dest`. -/
def copy (word : ℕ → ℕ) (dest src : ℕ) : ℕ → ℕ → ℕ
  | 0 => word
  | n + 1 => setByte (copy word dest src n) (dest + n) (byteAt (copy word dest src n) (src + n))

theorem setByte_of_ne {x : ℕ} (h : x ≠ a / 8 * 8) (v : UInt8) :
    setByte word a v x = word x := update_of_ne h _ _

theorem byteAt_congr {word' : ℕ → ℕ} (h : word' (a / 8 * 8) = word (a / 8 * 8)) :
    byteAt word' a = byteAt word a := by
  unfold byteAt
  rw [h]

theorem byteAt_setByte (word : ℕ → ℕ) (a b : ℕ) (v : UInt8) :
    byteAt (setByte word a v) b = if b = a then v else byteAt word b := by
  by_cases hw : b / 8 * 8 = a / 8 * 8
  · have hread : ofNat 8 (setByte word a v (b / 8 * 8)) =
        (ofNat 8 (word (a / 8 * 8))).set (a % 8) v := by
      have hof := ofNat_toNat ((ofNat 8 (word (a / 8 * 8))).set (a % 8) v)
      rw [length_set, length_ofNat] at hof
      rw [hw, setByte, update_self, hof]
    have hlt : a % 8 < (ofNat 8 (word (a / 8 * 8))).length := by
      rw [length_ofNat]
      exact Nat.mod_lt a (by decide)
    rw [byteAt, byteAt, hread, hw, getD_eq_getElem?_getD, getElem?_set]
    by_cases hb : b = a
    · rw [if_pos (by rw [hb]), if_pos hlt, if_pos hb, Option.getD_some]
    · rw [if_neg (by omega), if_neg hb, getD_eq_getElem?_getD]
  · rw [byteAt_congr (setByte_of_ne hw v), if_neg (by rintro rfl; exact hw rfl)]

theorem copy_of_ne {dest src x : ℕ} (h : ∀ k < n, x ≠ (dest + k) / 8 * 8) :
    copy word dest src n x = word x := by
  induction n with
  | zero => rfl
  | succ n ih =>
    rw [copy, setByte_of_ne (h n (Nat.lt_succ_self n)), ih fun k hk => h k (by omega)]

theorem byteAt_copy {dest src : ℕ} (h : dest + n ≤ src ∨ src + n ≤ dest) (a : ℕ) :
    byteAt (copy word dest src n) a =
      if dest ≤ a ∧ a < dest + n then byteAt word (src + (a - dest)) else byteAt word a := by
  induction n generalizing a with
  | zero => rw [if_neg (by omega), copy]
  | succ n ih =>
    have hsrc : byteAt (copy word dest src n) (src + n) = byteAt word (src + n) := by
      rw [ih (by omega), if_neg (by omega)]
    rw [copy, byteAt_setByte, hsrc, ih (by omega)]
    by_cases ha : a = dest + n
    · rw [if_pos ha, if_pos (by omega), ha, Nat.add_sub_cancel_left]
    · rw [if_neg ha]
      by_cases hin : dest ≤ a ∧ a < dest + n
      · rw [if_pos hin, if_pos (by omega)]
      · rw [if_neg hin, if_neg (by omega)]

end Bytes
