import Mathlib.Data.Nat.Digits.Lemmas

/-!
# Byte orders

An unsigned integer of `n` bytes lies in memory with its least significant byte first or
last. Network order is the latter, on every host: the conversion to it is the integer
whose bytes in memory come in that order. Converting a second time reverses the bytes of
a host that is not in network order.
-/

namespace CppWebserver.ByteOrders

/-- Least significant byte first, or last. -/
inductive ByteOrder where
  | little
  | big
  deriving DecidableEq

/-- The lowest `n` bytes, least significant first. -/
def lowBytes : ℕ → ℕ → List UInt8
  | 0, _ => []
  | n + 1, x => .ofNat x :: lowBytes n (x / 256)

@[simp] theorem length_lowBytes (n x : ℕ) : (lowBytes n x).length = n := by
  induction n generalizing x with
  | zero => rfl
  | succ n ih => simp [lowBytes, ih]

/-- The number with the given bytes, least significant first. -/
def ofBytes (bs : List UInt8) : ℕ := Nat.ofDigits 256 (bs.map UInt8.toNat)

@[simp] theorem ofBytes_nil : ofBytes [] = 0 := rfl

@[simp] theorem ofBytes_cons (b : UInt8) (bs : List UInt8) :
    ofBytes (b :: bs) = b.toNat + 256 * ofBytes bs := rfl

theorem ofBytes_lt (bs : List UInt8) : ofBytes bs < 256 ^ bs.length := by
  have h := Nat.ofDigits_lt_base_pow_length (b := 256) (l := bs.map UInt8.toNat) (by simp) ?_
  · simpa [ofBytes] using h
  · simp only [List.mem_map]
    rintro _ ⟨b, -, rfl⟩
    exact b.toNat_lt

theorem lowBytes_ofBytes (bs : List UInt8) : lowBytes bs.length (ofBytes bs) = bs := by
  induction bs with
  | nil => rfl
  | cons b bs ih =>
    have hb := b.toNat_lt
    have hdiv : (b.toNat + 256 * ofBytes bs) / 256 = ofBytes bs := by omega
    have hmod : UInt8.ofNat (b.toNat + 256 * ofBytes bs) = b := by
      apply UInt8.toNat_inj.mp
      rw [UInt8.toNat_ofNat']
      omega
    simp [lowBytes, hdiv, hmod, ih]

theorem ofBytes_lowBytes (n x : ℕ) : ofBytes (lowBytes n x) = x % 256 ^ n := by
  induction n generalizing x with
  | zero => simp [lowBytes, Nat.mod_one]
  | succ n ih =>
    have hpow : 256 ^ (n + 1) = 256 * 256 ^ n := Nat.pow_succ'
    rw [lowBytes, ofBytes_cons, ih, UInt8.toNat_ofNat', hpow, Nat.mod_mul]

namespace ByteOrder

/-- The bytes of an integer in the memory of a host. -/
def store : ByteOrder → ℕ → ℕ → List UInt8
  | little, n, x => lowBytes n x
  | big, n, x => (lowBytes n x).reverse

/-- The integer that a host reads from its memory. -/
def load : ByteOrder → List UInt8 → ℕ
  | little, bs => ofBytes bs
  | big, bs => ofBytes bs.reverse

variable (order : ByteOrder)

@[simp] theorem length_store (n x : ℕ) : (order.store n x).length = n := by
  cases order <;> simp [store]

theorem load_lt (bs : List UInt8) : order.load bs < 256 ^ bs.length := by
  cases order with
  | little => exact ofBytes_lt bs
  | big => simpa [load] using ofBytes_lt bs.reverse

@[simp] theorem store_load (bs : List UInt8) : order.store bs.length (order.load bs) = bs := by
  cases order with
  | little => exact lowBytes_ofBytes bs
  | big =>
    have h := lowBytes_ofBytes bs.reverse
    rw [List.length_reverse] at h
    rw [store, load, h, List.reverse_reverse]

/-- An integer comes back from memory as far as it fits. -/
theorem load_store (n x : ℕ) : order.load (order.store n x) = x % 256 ^ n := by
  cases order with
  | little => exact ofBytes_lowBytes n x
  | big =>
    rw [store, load, List.reverse_reverse]
    exact ofBytes_lowBytes n x

/-- The conversion of an integer of `n` bytes to network order. -/
def toNetwork (n x : ℕ) : ℕ := order.load (big.store n x)

theorem toNetwork_lt (n x : ℕ) : order.toNetwork n x < 256 ^ n := by
  have h := order.load_lt (big.store n x)
  rwa [length_store] at h

/-- What is converted lies in memory in network order. -/
theorem store_toNetwork (n x : ℕ) : order.store n (order.toNetwork n x) = big.store n x := by
  have h := order.store_load (big.store n x)
  rwa [length_store] at h

/-- What is in network order and is converted again comes in the order of the host. -/
theorem big_store_load (bs : List UInt8) : big.store bs.length (order.load bs) =
    match order with
    | big => bs
    | little => bs.reverse := by
  cases order with
  | big => exact store_load big bs
  | little => exact congrArg List.reverse (lowBytes_ofBytes bs)

/-- A second conversion does not matter on a host in network order, and for palindromes. -/
theorem big_store_load_eq_iff (bs : List UInt8) :
    big.store bs.length (order.load bs) = bs ↔ order = big ∨ bs.reverse = bs := by
  rw [big_store_load]
  cases order <;> simp

end ByteOrder

end CppWebserver.ByteOrders
