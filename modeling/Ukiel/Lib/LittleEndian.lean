/-
# Integers in a fixed number of bytes, least significant first

The counterpart of `beBytes` for `to_le_bytes` and `from_le_bytes`: `leBytes` writes the low
bytes of a number, `ofLeBytes` reads any bytes, and below the width the two undo each other.
-/
import Ukiel.Lib.PrefixCode

/-- The low `w` bytes of `n`, least significant first. -/
def leBytes : Nat → Nat → List UInt8
  | 0, _ => []
  | w + 1, n => UInt8.ofNat (n % 256) :: leBytes w (n / 256)

/-- The number these bytes write. -/
def ofLeBytes : List UInt8 → Nat
  | [] => 0
  | b :: bytes => b.toNat + 256 * ofLeBytes bytes

@[simp] theorem length_leBytes (w n : Nat) : (leBytes w n).length = w := by
  induction w generalizing n with
  | zero => rfl
  | succ w ih => rw [leBytes, List.length_cons, ih]

theorem ofLeBytes_leBytes {w n : Nat} (h : n < 256 ^ w) : ofLeBytes (leBytes w n) = n := by
  induction w generalizing n with
  | zero =>
    rw [Nat.pow_zero] at h
    rw [leBytes, ofLeBytes]
    omega
  | succ w ih =>
    have hdiv : n / 256 < 256 ^ w :=
      Nat.div_lt_of_lt_mul (by rwa [Nat.pow_succ, Nat.mul_comm] at h)
    have hbyte : (UInt8.ofNat (n % 256)).toNat = n % 256 :=
      UInt8.toNat_ofNat_of_lt' (Nat.mod_lt _ (by decide))
    rw [leBytes, ofLeBytes, ih hdiv, hbyte]
    omega

theorem leBytes_injOn (w : Nat) : Set.InjOn (leBytes w) {n | n < 256 ^ w} := by
  intro m hm n hn h
  rw [← ofLeBytes_leBytes hm, h, ofLeBytes_leBytes hn]

theorem prefixCode_leBytes (w : Nat) : PrefixCode {n | n < 256 ^ w} (leBytes w) :=
  PrefixCode.of_length (fun n _ => length_leBytes w n) (leBytes_injOn w)
