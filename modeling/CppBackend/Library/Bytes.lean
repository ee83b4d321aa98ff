import Mathlib.Data.Nat.Digits.Lemmas

/-!
# Numbers in network byte order

`toBytes k n` are the `k` bytes of `n`, most significant first; `ofBytes` reads a number back.
Cutting bytes off the end divides the number (`ofBytes_append`), and among byte strings of one
length the number determines the string (`ofBytes_inj`).
-/

set_option autoImplicit false

namespace Library.Bytes

/-- The last `k` bytes of `n`, most significant first. -/
def toBytes : Nat → Nat → List UInt8
  | 0, _ => []
  | k + 1, n => toBytes k (n / 256) ++ [UInt8.ofNat n]

/-- The number that the bytes stand for. -/
def ofBytes (bs : List UInt8) : Nat := Nat.ofDigits 256 (bs.reverse.map UInt8.toNat)

@[simp] theorem toBytes_length : ∀ k n, (toBytes k n).length = k
  | 0, _ => rfl
  | k + 1, n => by simp [toBytes, toBytes_length k]

theorem ofBytes_append (xs ys : List UInt8) :
    ofBytes (xs ++ ys) = ofBytes xs * 256 ^ ys.length + ofBytes ys := by
  unfold ofBytes
  rw [List.reverse_append, List.map_append, Nat.ofDigits_append, List.length_map,
    List.length_reverse]
  ring

@[simp] theorem ofBytes_nil : ofBytes [] = 0 := rfl

theorem ofBytes_singleton (b : UInt8) : ofBytes [b] = b.toNat := by
  simp [ofBytes]

theorem ofBytes_lt (bs : List UInt8) : ofBytes bs < 256 ^ bs.length := by
  have hd : ∀ x ∈ bs.reverse.map UInt8.toNat, x < 256 := by
    intro x hx
    obtain ⟨b, _, rfl⟩ := List.mem_map.mp hx
    exact UInt8.toNat_lt b
  have := Nat.ofDigits_lt_base_pow_length (by omega) hd
  rwa [List.length_map, List.length_reverse] at this

theorem ofBytes_toBytes : ∀ k n, ofBytes (toBytes k n) = n % 256 ^ k
  | 0, n => by simp [toBytes, Nat.mod_one]
  | k + 1, n => by
    have hlast : (UInt8.ofNat n).toNat = n % 256 := UInt8.toNat_ofNat'
    rw [toBytes, ofBytes_append, ofBytes_toBytes k, ofBytes_singleton, hlast, List.length_singleton,
      pow_one, pow_succ, Nat.mul_comm (256 ^ k), Nat.mod_mul, Nat.mul_comm, Nat.add_comm]

@[simp] theorem ofBytes_zeros (k : Nat) : ofBytes (List.replicate k 0) = 0 := by
  unfold ofBytes
  rw [List.reverse_replicate, List.map_replicate]
  exact Nat.ofDigits_replicate_zero

theorem ofBytes_inj {xs ys : List UInt8} (hlen : xs.length = ys.length)
    (h : ofBytes xs = ofBytes ys) : xs = ys := by
  have hlt : ∀ (bs : List UInt8), ∀ x ∈ bs.reverse.map UInt8.toNat, x < 256 := by
    intro bs x hx
    obtain ⟨b, _, rfl⟩ := List.mem_map.mp hx
    exact UInt8.toNat_lt b
  have hmap := Nat.ofDigits_inj_of_len_eq (by omega) (by simp [hlen]) (hlt xs) (hlt ys) h
  exact List.reverse_injective (List.map_injective_iff.mpr (fun _ _ => UInt8.toNat_inj.mp) hmap)

theorem toBytes_mod (k n : Nat) : toBytes k (n % 256 ^ k) = toBytes k n := by
  refine ofBytes_inj (by simp) ?_
  rw [ofBytes_toBytes, ofBytes_toBytes, Nat.mod_mod]

end Library.Bytes
