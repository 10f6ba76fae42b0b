/-
  Sizes of bucket tables.

  The number of buckets is found by counting up to the next prime, testing each
  number by trial division.  Both loops are unbounded and work in 32 bits.  Their
  runs are the relations `TrialDivision`, `PrimeTest` and `PrimeSearch` on words;
  a rule applies only where no product and no sum wraps, so a derivation is a run
  that ends without overflow.  The number 2^31 - 1 is prime, so that a search that
  starts below it stays below it, and trial division of such numbers squares
  nothing above 46341.
-/
import Mathlib.NumberTheory.Bertrand
import Mathlib.NumberTheory.LucasLehmer
import Arbor.Bucket
import Arbor.Proofs.Simulation.Switches

set_option autoImplicit false

namespace Arbor.Bucket

/-! ## The search on words -/

/-- Trial division of `n` by `d`, `d + 1`, and so on, with its answer. -/
inductive TrialDivision (n : UInt32) : UInt32 → Bool → Prop
  | passed {d : UInt32} (hsquare : d.toNat * d.toNat < UInt32.size) (h : n < d * d) :
      TrialDivision n d true
  | divided {d : UInt32} (hsquare : d.toNat * d.toNat < UInt32.size) (hd : d ≠ 0) (h : d * d ≤ n)
      (hmod : n % d = 0) : TrialDivision n d false
  | next {d : UInt32} {answer : Bool} (hsquare : d.toNat * d.toNat < UInt32.size) (hd : d ≠ 0)
      (h : d * d ≤ n) (hmod : n % d ≠ 0) (hsucc : d.toNat + 1 < UInt32.size)
      (rest : TrialDivision n (d + 1) answer) : TrialDivision n d answer

/-- The test for primes, with its answer. -/
inductive PrimeTest : UInt32 → Bool → Prop
  | small {n : UInt32} (h : n < 2) : PrimeTest n false
  | divide {n : UInt32} {answer : Bool} (h : 2 ≤ n) (trial : TrialDivision n 2 answer) :
      PrimeTest n answer

/-- Counting up from a number to the first that passes the test. -/
inductive PrimeSearch : UInt32 → UInt32 → Prop
  | found {n : UInt32} (h : PrimeTest n true) : PrimeSearch n n
  | next {n p : UInt32} (h : PrimeTest n false) (hsucc : n.toNat + 1 < UInt32.size)
      (rest : PrimeSearch (n + 1) p) : PrimeSearch n p

/-- Trial division gives one answer. -/
theorem TrialDivision.unique {n d : UInt32} {a b : Bool} (h : TrialDivision n d a)
    (h' : TrialDivision n d b) : a = b := by
  induction h with
  | passed _ hlt =>
      cases h' with
      | passed => rfl
      | divided _ _ hle => exact absurd hlt (UInt32.not_lt.mpr hle)
      | next _ _ hle => exact absurd hlt (UInt32.not_lt.mpr hle)
  | divided _ _ hle hmod =>
      cases h' with
      | passed _ hlt => exact absurd hlt (UInt32.not_lt.mpr hle)
      | divided => rfl
      | next _ _ _ hne => exact absurd hmod hne
  | next _ _ hle hne _ _ ih =>
      cases h' with
      | passed _ hlt => exact absurd hlt (UInt32.not_lt.mpr hle)
      | divided _ _ _ hmod => exact absurd hmod hne
      | next _ _ _ _ _ rest => exact ih rest

/-- The test gives one answer. -/
theorem PrimeTest.unique {n : UInt32} {a b : Bool} (h : PrimeTest n a) (h' : PrimeTest n b) :
    a = b := by
  cases h with
  | small hlt =>
      cases h' with
      | small => rfl
      | divide hle => exact absurd hlt (UInt32.not_lt.mpr hle)
  | divide hle trial =>
      cases h' with
      | small hlt => exact absurd hlt (UInt32.not_lt.mpr hle)
      | divide _ trial' => exact trial.unique trial'

/-- The search finds one number. -/
theorem PrimeSearch.unique {n p q : UInt32} (h : PrimeSearch n p) (h' : PrimeSearch n q) :
    p = q := by
  induction h with
  | found htest =>
      cases h' with
      | found => rfl
      | next hfail => exact absurd (htest.unique hfail) (by decide)
  | next hfail _ _ ih =>
      cases h' with
      | found htest => exact absurd (htest.unique hfail) (by decide)
      | next _ _ rest => exact ih rest

/-! ## Trial division is exact -/

/-- Trial division with enough fuel finds every divisor up to the square root. -/
theorem noDivisorFrom_iff {n fuel d : Nat} (hfuel : n < (d + fuel) * (d + fuel)) :
    noDivisorFrom n fuel d = true ↔ ∀ m, d ≤ m → m * m ≤ n → ¬ m ∣ n := by
  induction fuel generalizing d with
  | zero =>
      refine ⟨fun _ m hm hsquare => ?_, fun _ => rfl⟩
      exact absurd (Nat.mul_le_mul hm hm) (by rw [Nat.add_zero] at hfuel; omega)
  | succ fuel ih =>
      have hrest := ih (d := d + 1) (by rwa [Nat.add_right_comm])
      unfold noDivisorFrom
      split
      · rename_i hlt
        refine ⟨fun _ m hm hsquare => ?_, fun _ => rfl⟩
        exact absurd (Nat.mul_le_mul hm hm) (by omega)
      · rename_i hge
        split
        · rename_i hmod
          have hdvd : d ∣ n := Nat.dvd_of_mod_eq_zero (by simpa using hmod)
          exact ⟨fun h => absurd h (by decide), fun h => absurd hdvd (h d le_rfl (by omega))⟩
        · rename_i hmod
          rw [hrest]
          refine ⟨fun h m hm hsquare => ?_, fun h m hm => h m (by omega)⟩
          rcases Nat.eq_or_lt_of_le hm with rfl | hlt
          · exact fun hdvd => hmod (by simpa using Nat.mod_eq_zero_of_dvd hdvd)
          · exact h m hlt hsquare

/-- The test for primes is exact. -/
theorem isPrime_iff (n : Nat) : isPrime n = true ↔ n.Prime := by
  rw [Nat.prime_def_le_sqrt, isPrime, Bool.and_eq_true, decide_eq_true_eq]
  refine and_congr_right fun _ => ?_
  rw [noDivisorFrom_iff (show n < (2 + n) * (2 + n) by nlinarith)]
  simp only [Nat.le_sqrt]

/-- The search finds the least prime, if there is one within its fuel. -/
theorem nextPrime_isLeast {fuel n p : Nat} (hp : p.Prime) (hle : n ≤ p) (hfuel : p ≤ n + fuel) :
    IsLeast {q | q.Prime ∧ n ≤ q} (nextPrime fuel n) := by
  induction fuel generalizing n with
  | zero =>
      obtain rfl : p = n := by omega
      exact ⟨⟨hp, le_rfl⟩, fun q hq => hq.2⟩
  | succ fuel ih =>
      unfold nextPrime
      split
      · rename_i htest
        exact ⟨⟨(isPrime_iff n).mp htest, le_rfl⟩, fun q hq => hq.2⟩
      · rename_i htest
        have hn : ¬ n.Prime := fun h => htest ((isPrime_iff n).mpr h)
        have above {q : Nat} (hq : q.Prime) (hge : n ≤ q) : n + 1 ≤ q :=
          Nat.lt_of_le_of_ne hge fun heq => hn (heq ▸ hq)
        obtain ⟨hmem, hleast⟩ := ih (above hp hle) (by omega)
        exact ⟨⟨hmem.1, Nat.le_of_succ_le hmem.2⟩, fun q hq => hleast ⟨hq.1, above hq.1 hq.2⟩⟩

/-! ## Nothing wraps -/

theorem prime_signedMax : (2 ^ 31 - 1).Prime :=
  lucas_lehmer_sufficiency 31 (by decide) (by norm_num)

theorem square_lt {d : UInt32} (hd : d.toNat ≤ 46341) : d.toNat * d.toNat < UInt32.size :=
  Nat.lt_of_le_of_lt (Nat.mul_le_mul hd hd) (by decide)

theorem toNat_succ {n : UInt32} (h : n.toNat + 1 < UInt32.size) : (n + 1).toNat = n.toNat + 1 := by
  rw [UInt32.toNat_add, UInt32.toNat_one, Nat.mod_eq_of_lt h]

/-- Trial division of a number below 2^31 ends without overflow. -/
theorem trialDivision_run {n d : UInt32} {fuel : Nat} (hn : n.toNat ≤ 2 ^ 31 - 1)
    (hd : 2 ≤ d.toNat) (hbound : d.toNat ≤ 46341)
    (hfuel : n.toNat < (d.toNat + fuel) * (d.toNat + fuel)) :
    TrialDivision n d (noDivisorFrom n.toNat fuel d.toNat) := by
  induction fuel generalizing d with
  | zero =>
      refine .passed (square_lt hbound) (UInt32.lt_iff_toNat_lt.mpr ?_)
      rw [UInt32.toNat_mul, Nat.mod_eq_of_lt (square_lt hbound)]
      exact hfuel
  | succ fuel ih =>
      have hsquare := square_lt hbound
      have hmul : (d * d).toNat = d.toNat * d.toNat := by
        rw [UInt32.toNat_mul, Nat.mod_eq_of_lt hsquare]
      have hzero : d ≠ 0 := by
        rintro rfl
        exact absurd hd (by decide)
      unfold noDivisorFrom
      split
      · rename_i hlt
        exact .passed hsquare (UInt32.lt_iff_toNat_lt.mpr (hmul ▸ hlt))
      · rename_i hge
        have hle : d * d ≤ n := UInt32.le_iff_toNat_le.mpr (by omega)
        split
        · rename_i hmod
          refine .divided hsquare hzero hle (UInt32.toNat_inj.mp ?_)
          simpa using hmod
        · rename_i hmod
          -- The square is below 2^31, so that the next divisor is not above 46341 either.
          have hsmall : d.toNat ≤ 46340 := by
            by_contra hlarge
            have := Nat.mul_le_mul (Nat.lt_of_not_le hlarge) (Nat.lt_of_not_le hlarge)
            omega
          have hroom : d.toNat + 1 < UInt32.size := by
            simp only [UInt32.size]
            omega
          have hsucc := toNat_succ hroom
          refine .next hsquare hzero hle (fun h => hmod ?_) hroom (hsucc ▸ ih ?_ ?_ ?_)
          · simpa using congrArg UInt32.toNat h
          · omega
          · omega
          · rw [hsucc]
            convert hfuel using 2 <;> omega

/-- The test of a number below 2^31 ends without overflow, with the right answer. -/
theorem primeTest_run {n : UInt32} (hn : n.toNat ≤ 2 ^ 31 - 1) : PrimeTest n (isPrime n.toNat) := by
  unfold isPrime
  by_cases h : 2 ≤ n.toNat
  · rw [decide_eq_true h, Bool.true_and]
    refine .divide (UInt32.le_iff_toNat_le.mpr h) (trialDivision_run hn le_rfl (by decide) ?_)
    change n.toNat < (2 + n.toNat) * (2 + n.toNat)
    nlinarith
  · rw [decide_eq_false h, Bool.false_and]
    exact .small (UInt32.lt_iff_toNat_lt.mpr (Nat.lt_of_not_le h))

/-- The search from a number below 2^31 ends without overflow, as there is a prime at the end. -/
theorem primeSearch_run {n : UInt32} {fuel : Nat} (hn : n.toNat ≤ 2 ^ 31 - 1)
    (hprime : (nextPrime fuel n.toNat).Prime) :
    ∃ p, PrimeSearch n p ∧ p.toNat = nextPrime fuel n.toNat := by
  induction fuel generalizing n with
  | zero =>
      have htest := primeTest_run hn
      rw [(isPrime_iff n.toNat).mpr hprime] at htest
      exact ⟨n, .found htest, rfl⟩
  | succ fuel ih =>
      have htest := primeTest_run hn
      unfold nextPrime at hprime ⊢
      split at hprime
      · rename_i hyes
        rw [if_pos hyes]
        exact ⟨n, .found (hyes ▸ htest), rfl⟩
      · rename_i hno
        rw [if_neg hno]
        rw [Bool.not_eq_true] at hno
        -- The last number below 2^31 is prime, so that the search is not there yet.
        have hlt : n.toNat < 2 ^ 31 - 1 := by
          refine Nat.lt_of_le_of_ne hn fun heq => ?_
          rw [heq, (isPrime_iff _).mpr prime_signedMax] at hno
          cases hno
        have hroom : n.toNat + 1 < UInt32.size := by
          simp only [UInt32.size]
          omega
        have hsucc := toNat_succ hroom
        obtain ⟨p, hp, heq⟩ := ih (n := n + 1) (by omega) (hsucc ▸ hprime)
        exact ⟨p, .next (hno ▸ htest) hroom hp, hsucc ▸ heq⟩

/-! ## The size and the buckets -/

/-- The number of buckets is the least prime that is neither below the number of keys nor below
two. -/
theorem count_isLeast {keys : Nat} (h : keys ≤ 2 ^ 31 - 1) :
    IsLeast {p | p.Prime ∧ max keys 2 ≤ p} (count keys) := by
  obtain ⟨p, hp, hlt, hle⟩ := Nat.exists_prime_lt_and_le_two_mul (max keys 2) (by omega)
  unfold count
  rw [Nat.mod_eq_of_lt (by omega)]
  exact nextPrime_isLeast hp hlt.le (by omega)

theorem bucket_of_same {a b : CaseKey} {ty : Ty} (ha : a.isOf ty = true) (h : a.same b = true)
    (size : Nat) : a.switchKey?.map (of · size) = b.switchKey?.map (of · size) := by
  rw [CaseKey.switchKey?_of_same ha h]

/-- Integers are in one bucket if they leave the same remainder. -/
theorem of_int_eq_iff {size : Nat} (hsize : 0 < size) (v w : Int) :
    of (.int v) size = of (.int w) size ↔ v ≡ w [ZMOD size] := by
  have hv := Int.emod_nonneg v (Int.natCast_ne_zero.mpr hsize.ne')
  have hw := Int.emod_nonneg w (Int.natCast_ne_zero.mpr hsize.ne')
  simp only [of, Int.ModEq]
  omega

/-- For every number of keys that 32 bits with a sign hold, the search for the size of a table ends
without overflow in the number that the compiler uses, and only there: the least prime that is
neither below the number of keys nor below two.  Every key is in a bucket of the table, integers by
their remainders and keys that are the same in the same one. -/
theorem count_search_least_prime (keys : Nat) (h : keys ≤ 2 ^ 31 - 1) :
    (∀ p, PrimeSearch (UInt32.ofNat (max keys 2)) p ↔ p.toNat = count keys) ∧
      IsLeast {p | p.Prime ∧ max keys 2 ≤ p} (count keys) ∧
      (∀ key, of key (count keys) < count keys) ∧
      (∀ v w : Int, of (.int v) (count keys) = of (.int w) (count keys) ↔ v ≡ w [ZMOD count keys]) ∧
      ∀ (a b : CaseKey) (ty : Ty), a.isOf ty = true → a.same b = true →
        a.switchKey?.map (of · (count keys)) = b.switchKey?.map (of · (count keys)) := by
  have hleast := count_isLeast h
  refine ⟨fun p => ?_, hleast, fun key => of_lt key (count_pos keys),
    of_int_eq_iff (count_pos keys), fun a b ty ha hsame => bucket_of_same ha hsame _⟩
  have hword : (UInt32.ofNat (max keys 2)).toNat = max keys 2 :=
    UInt32.toNat_ofNat_of_lt' (by simp only [UInt32.size]; omega)
  have hcount : count keys = nextPrime (max keys 2 + 2) (UInt32.ofNat (max keys 2)).toNat := by
    rw [hword, count, Nat.mod_eq_of_lt (by omega)]
  obtain ⟨q, hq, hqcount⟩ := primeSearch_run (n := UInt32.ofNat (max keys 2)) (by omega)
    (hcount ▸ hleast.1.1)
  refine ⟨fun hp => ?_, fun hp => ?_⟩
  · rw [hp.unique hq, hqcount, hcount]
  · rwa [UInt32.toNat_inj.mp (hp.trans (hcount.trans hqcount.symm))]

/-- At the largest number of keys the search ends at once. -/
theorem count_search_signedMax :
    2 ^ 31 - 1 ≤ 2 ^ 31 - 1 ∧ count (2 ^ 31 - 1) = 2 ^ 31 - 1 ∧
      PrimeSearch 0x7fffffff 0x7fffffff := by
  obtain ⟨hsearch, hleast, -⟩ := count_search_least_prime (2 ^ 31 - 1) le_rfl
  have hcount : count (2 ^ 31 - 1) = 2 ^ 31 - 1 :=
    le_antisymm (hleast.2 ⟨prime_signedMax, by decide⟩) (le_trans (by decide) hleast.1.2)
  exact ⟨le_rfl, hcount, (hsearch 0x7fffffff).mpr hcount.symm⟩

end Arbor.Bucket
