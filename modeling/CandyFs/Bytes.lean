import Mathlib.Tactic.Ring
import Mathlib.Tactic.Linarith
import Mathlib.Algebra.Order.Group.Int

/-! Little-endian fields of a byte block. A block is a function from offsets to
bytes; a field is a run of bytes read as an unsigned number, a word is an aligned
eight-byte field read as a signed number.
-/
namespace CandyFs.Bytes

abbrev Block := Nat → UInt8

/-- The unsigned number held by the `n` bytes at `off`, least significant first. -/
def field (b : Block) (off : Nat) : Nat → Nat
  | 0 => 0
  | n + 1 => (b off).toNat + 256 * field b (off + 1) n

def setField (b : Block) (off n value : Nat) : Block := fun j =>
  if off ≤ j ∧ j < off + n then UInt8.ofNat (value / 256 ^ (j - off)) else b j

theorem field_congr (b c : Block) (off n : Nat)
    (same : ∀ j, off ≤ j → j < off + n → b j = c j) : field b off n = field c off n := by
  induction n generalizing off with
  | zero => rfl
  | succ n ih =>
    simp only [field]
    rw [same off (by omega) (by omega),ih (off + 1) fun j lo hi => same j (by omega) (by omega)]

theorem field_lt (b : Block) (off n : Nat) : field b off n < 256 ^ n := by
  induction n generalizing off with
  | zero => simp [field]
  | succ n ih =>
    have tail := ih (off + 1)
    have head : (b off).toNat < 256 := (b off).toNat_lt
    simp only [field,Nat.pow_succ]
    omega

private theorem field_setField_part (b : Block) (off n value k m : Nat) (inside : k + m ≤ n) :
    field (setField b off n value) (off + k) m = value / 256 ^ k % 256 ^ m := by
  induction m generalizing k with
  | zero => simp [field,Nat.mod_one]
  | succ m ih =>
    have tail := ih (k + 1) (by omega)
    have head : (setField b off n value (off + k)).toNat = value / 256 ^ k % 256 := by
      simp only [setField]
      rw [if_pos ⟨by omega,by omega⟩,Nat.add_sub_cancel_left]
      simp
    have shifted : value / 256 ^ (k + 1) = value / 256 ^ k / 256 := by
      rw [Nat.pow_succ,← Nat.div_div_eq_div_mul]
    rw [field,head,show off + k + 1 = off + (k + 1) by omega,tail,shifted,
      show 256 ^ (m + 1) = 256 * 256 ^ m from Nat.pow_succ',Nat.mod_mul]

theorem field_setField (b : Block) (off n value : Nat) :
    field (setField b off n value) off n = value % 256 ^ n := by
  simpa using field_setField_part b off n value 0 n (by omega)

theorem setField_outside (b : Block) (off n value j : Nat) (outside : j < off ∨ off + n ≤ j) :
    setField b off n value j = b j := by
  simp only [setField]
  exact if_neg (by omega)

theorem field_setField_outside (b : Block) (off n value off' n' : Nat)
    (apart : off' + n' ≤ off ∨ off + n ≤ off') :
    field (setField b off n value) off' n' = field b off' n' :=
  field_congr _ _ _ _ fun j _ _ => setField_outside b off n value j (by omega)

/-- A 64-bit pattern read as a signed number. -/
def signed (n : Nat) : Int := if n < 2 ^ 63 then n else n - 2 ^ 64

/-- The value a signed 64-bit variable has after `x` is stored in it. -/
def wrap (x : Int) : Int := signed (x % 2 ^ 64).toNat

/-- `x` is a value of a signed 64-bit variable. -/
def Fits (x : Int) : Prop := -2 ^ 63 ≤ x ∧ x < 2 ^ 63

instance (x : Int) : Decidable (Fits x) := inferInstanceAs (Decidable (_ ∧ _))

theorem signed_fits (n : Nat) (bound : n < 2 ^ 64) : Fits (signed n) := by
  unfold Fits signed
  split <;> omega

theorem wrap_of_fits {x : Int} (h : Fits x) : wrap x = x := by
  unfold Fits at h
  unfold wrap signed
  split <;> omega

theorem wrap_add {x y : Int} (left : 0 ≤ x) (right : 0 ≤ y) (left' : x < 2 ^ 63) (right' : y < 2 ^ 63) :
    wrap (x + y) = if x + y < 2 ^ 63 then x + y else x + y - 2 ^ 64 := by
  unfold wrap signed
  split <;> split <;> omega

/-- The value of an `unsigned long` parameter when `x` is passed to it. -/
def ulong (x : Int) : Nat := (x % 2 ^ 64).toNat

theorem ulong_of_nonneg {x : Int} (low : 0 ≤ x) (high : x < 2 ^ 64) : ulong x = x.toNat := by
  unfold ulong
  omega

theorem ulong_natCast {n : Nat} (high : n < 2 ^ 64) : ulong n = n := by
  unfold ulong
  omega

def word (b : Block) (i : Nat) : Int := signed (field b (8 * i) 8)

def setWord (b : Block) (i : Nat) (x : Int) : Block := setField b (8 * i) 8 (ulong x)

/-- The block whose words are the values of `f`. -/
def ofWords (f : Nat → Int) : Block := fun j => UInt8.ofNat (ulong (f (j / 8)) / 256 ^ (j % 8))

theorem word_fits (b : Block) (i : Nat) : Fits (word b i) :=
  signed_fits _ (field_lt b (8 * i) 8)

theorem word_congr (b c : Block) (i : Nat)
    (same : ∀ j, 8 * i ≤ j → j < 8 * i + 8 → b j = c j) : word b i = word c i := by
  rw [word,word,field_congr b c _ _ same]

@[simp] theorem word_setWord_self (b : Block) (i : Nat) (x : Int) :
    word (setWord b i x) i = wrap x := by
  have small : ulong x % 256 ^ 8 = ulong x := Nat.mod_eq_of_lt (by unfold ulong; omega)
  rw [word,setWord,field_setField,small]
  rfl

theorem word_setWord_ne (b : Block) (i j : Nat) (x : Int) (differ : j ≠ i) :
    word (setWord b i x) j = word b j :=
  congrArg signed (field_setField_outside _ _ _ _ _ _ (by omega))

theorem word_setWord (b : Block) (i j : Nat) (x : Int) :
    word (setWord b i x) j = if j = i then wrap x else word b j := by
  split
  · subst i; exact word_setWord_self b j x
  · exact word_setWord_ne b i j x ‹_›

theorem field_setWord_outside (b : Block) (i : Nat) (x : Int) (off n : Nat)
    (apart : off + n ≤ 8 * i ∨ 8 * i + 8 ≤ off) : field (setWord b i x) off n = field b off n :=
  field_setField_outside _ _ _ _ _ _ apart

theorem setWord_outside (b : Block) (i : Nat) (x : Int) (j : Nat)
    (outside : j < 8 * i ∨ 8 * i + 8 ≤ j) : setWord b i x j = b j :=
  setField_outside _ _ _ _ _ outside

@[simp] theorem word_ofWords (f : Nat → Int) (i : Nat) : word (ofWords f) i = wrap (f i) := by
  have same : word (ofWords f) i = word (setWord (ofWords f) i (f i)) i := by
    apply word_congr
    intro j lo hi
    have row : j / 8 = i := by omega
    have column : j % 8 = j - 8 * i := by omega
    simp only [ofWords,setWord,setField]
    rw [if_pos ⟨lo,by omega⟩,row,column]
  rw [same,word_setWord_self]

theorem field_byte (b : Block) (off n k : Nat) (inside : k < n) :
    UInt8.ofNat (field b off n / 256 ^ k) = b (off + k) := by
  induction n generalizing off k with
  | zero => omega
  | succ n ih =>
    have head : (b off).toNat < 256 := (b off).toNat_lt
    rw [field]
    cases k with
    | zero =>
      change UInt8.ofNat _ = b off
      apply UInt8.toNat_inj.mp
      rw [pow_zero,Nat.div_one,UInt8.toNat_ofNat']
      omega
    | succ k =>
      rw [pow_succ',← Nat.div_div_eq_div_mul,Nat.add_mul_div_left _ _ (by omega),
        Nat.div_eq_of_lt head,zero_add,ih (off + 1) k (by omega)]
      exact congrArg b (by omega)

theorem setField_field (b : Block) (off n : Nat) : setField b off n (field b off n) = b := by
  funext j
  unfold setField
  split
  · rename_i inside
    rw [field_byte b off n (j - off) (by omega)]
    exact congrArg b (by omega)
  · rfl

theorem ulong_signed (n : Nat) (bound : n < 2 ^ 64) : ulong (signed n) = n := by
  unfold ulong signed
  split <;> omega

theorem ulong_congr {x y : Int} (same : x % 2 ^ 64 = y % 2 ^ 64) : ulong x = ulong y := by
  rw [ulong,same,ulong]

theorem wrap_emod (x : Int) : wrap x % 2 ^ 64 = x % 2 ^ 64 := by
  unfold wrap signed
  split <;> omega

@[simp] theorem setWord_word (b : Block) (i : Nat) : setWord b i (word b i) = b := by
  rw [setWord,word,ulong_signed _ (field_lt b (8 * i) 8),setField_field]

theorem setWord_congr (b : Block) (i : Nat) {x y : Int} (same : x % 2 ^ 64 = y % 2 ^ 64) :
    setWord b i x = setWord b i y := by
  rw [setWord,ulong_congr same,setWord]

theorem setWord_setWord (b : Block) (i : Nat) (x y : Int) :
    setWord (setWord b i x) i y = setWord b i y := by
  funext j
  simp only [setWord,setField]
  split <;> rfl

theorem setWord_comm (b : Block) (i j : Nat) (x y : Int) (differ : i ≠ j) :
    setWord (setWord b i x) j y = setWord (setWord b j y) i x := by
  funext k
  simp only [setWord,setField]
  split_ifs <;> first | rfl | omega

/-- `memcpy` of `n` bytes from `src + soff` to `dst + doff`. -/
def copyBytes (dst : Block) (doff : Nat) (src : Block) (soff n : Nat) : Block := fun j =>
  if doff ≤ j ∧ j < doff + n then src (soff + (j - doff)) else dst j

theorem copyBytes_inside (dst src : Block) (doff soff n j : Nat) (low : doff ≤ j)
    (high : j < doff + n) : copyBytes dst doff src soff n j = src (soff + (j - doff)) :=
  if_pos ⟨low,high⟩

theorem copyBytes_outside (dst src : Block) (doff soff n j : Nat)
    (outside : j < doff ∨ doff + n ≤ j) : copyBytes dst doff src soff n j = dst j :=
  if_neg (by omega)

end CandyFs.Bytes
