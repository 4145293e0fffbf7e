import Mathlib.Data.List.Prime
import Mathlib.NumberTheory.LucasPrimality

/-!
# Primes with a certificate

`lucas_primality` needs `a ^ (p - 1) = 1` and `a ^ ((p - 1) / q) ≠ 1` for every prime `q ∣ p - 1`.
A `LucasCert p` holds a base, the prime factors of `p - 1` and these facts about natural numbers,
with the powers by repeated squaring (`powMod`) so that the kernel evaluates them. The primality
of the factors is a field, so a tower of primes is a sequence of certificates.
-/

namespace Arith

/-- `b ^ e % m` by repeated squaring, exact for an exponent of at most `bits` bits. -/
def powMod (m : Nat) : (bits b e : Nat) → Nat
  | 0, _, _ => 1 % m
  | bits + 1, b, e =>
    if e % 2 = 0 then powMod m bits (b * b % m) (e / 2)
    else b * powMod m bits (b * b % m) (e / 2) % m

theorem powMod_eq (m bits : Nat) : ∀ b e : Nat, e < 2 ^ bits → powMod m bits b e = b ^ e % m := by
  induction bits with
  | zero =>
    intro b e he
    obtain rfl : e = 0 := by simpa using he
    rfl
  | succ bits ih =>
    intro b e he
    rw [pow_succ] at he
    have hsq : powMod m bits (b * b % m) (e / 2) = b ^ (2 * (e / 2)) % m := by
      rw [ih _ _ (by omega), ← Nat.pow_mod, pow_mul, sq]
    rw [powMod, hsq]
    split
    · rw [show 2 * (e / 2) = e by omega]
    · rw [Nat.mul_mod_mod, ← pow_succ', show 2 * (e / 2) + 1 = e by omega]

/-- A base and the factors of `p - 1` for which the Lucas test of `p` succeeds. -/
structure LucasCert (p : Nat) where
  base : Nat
  /-- The prime factors of `p - 1`, with repetition. -/
  factors : List Nat
  prime : ∀ q ∈ factors, q.Prime
  prod_eq : factors.prod + 1 = p
  lt : p < 2 ^ 256
  full : powMod p 256 base (p - 1) = 1
  proper : ∀ q ∈ factors, powMod p 256 base ((p - 1) / q) ≠ 1

/-- **A certified number is prime.** -/
theorem LucasCert.isPrime {p : Nat} (c : LucasCert p) : p.Prime := by
  have hpos : 0 < c.factors.prod := List.prod_pos fun q hq => (c.prime q hq).pos
  have hp : 1 < p := by have := c.prod_eq; omega
  have hone : ∀ n ≤ p - 1, ((c.base : ZMod p) ^ n = 1 ↔ powMod p 256 c.base n = 1) := by
    intro n hn
    have hn' : n < 2 ^ 256 := (hn.trans (Nat.sub_le p 1)).trans_lt c.lt
    rw [powMod_eq p 256 _ _ hn', ← Nat.cast_pow, ← Nat.cast_one (R := ZMod p),
      ZMod.natCast_eq_natCast_iff', Nat.mod_eq_of_lt hp]
  refine lucas_primality p c.base ((hone _ le_rfl).mpr c.full) fun q hq hdvd => ?_
  have hmem : q ∈ c.factors := by
    refine mem_list_primes_of_dvd_prod hq.prime (fun r hr => (c.prime r hr).prime) ?_
    rwa [← c.prod_eq, Nat.add_sub_cancel] at hdvd
  exact fun h => c.proper q hmem ((hone _ (Nat.div_le_self _ _)).mp h)

end Arith
