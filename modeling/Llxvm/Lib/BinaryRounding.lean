import Llxvm.Lib.Decimal

/-!
# Binary numbers with a fixed number of significant bits

Rounding of rationals to the nearest number with `p` significant bits, ties to even, with no
bound on the exponent.  For natural numbers it comes down to rounding to a multiple of a power
of two, and there a second rounding to fewer bits can be compared with a single one.
-/

namespace Llxvm

/-! ## Multiples -/

/-- The nearest multiple of `d`, an even one if there are two. -/
def roundMultiple (d n : ℕ) : ℕ :=
  if 2 * (n % d) < d ∨ 2 * (n % d) = d ∧ n / d % 2 = 0 then n / d * d else (n / d + 1) * d

theorem roundHalfEven_intCast (k : ℤ) : roundHalfEven (k : ℚ) = k := by
  unfold roundHalfEven
  rw [Int.floor_intCast, if_pos (Or.inl (by simp))]

theorem roundHalfEven_div {d : ℕ} (hd : 0 < d) (n : ℕ) :
    (roundHalfEven ((n : ℚ) / d) : ℚ) * d = roundMultiple d n := by
  have hd' : (0 : ℚ) < d := by exact_mod_cast hd
  have hfloor : ⌊(n : ℚ) / d⌋ = ((n / d : ℕ) : ℤ) := by
    rw [Rat.floor_natCast_div_natCast, Int.natCast_div]
  have hrest : 2 * ((n : ℚ) / d - (n / d : ℕ)) = (2 * (n % d) : ℕ) / d := by
    have hsplit : (n : ℚ) = d * (n / d : ℕ) + (n % d : ℕ) := by
      exact_mod_cast (Nat.div_add_mod n d).symm
    rw [eq_div_iff hd'.ne', mul_assoc, sub_mul, div_mul_cancel₀ _ hd'.ne']
    push_cast at hsplit ⊢
    linarith
  have hlt : 2 * ((n : ℚ) / d - (n / d : ℕ)) < 1 ↔ 2 * (n % d) < d := by
    rw [hrest, div_lt_one hd']
    exact Nat.cast_lt
  have heq : 2 * ((n : ℚ) / d - (n / d : ℕ)) = 1 ↔ 2 * (n % d) = d := by
    rw [hrest, div_eq_one_iff_eq hd'.ne']
    exact Nat.cast_inj
  have heven : ((n / d : ℕ) : ℤ) % 2 = 0 ↔ n / d % 2 = 0 := by omega
  unfold roundHalfEven roundMultiple
  simp only [hfloor, Int.cast_natCast, hlt, heq, heven]
  generalize n / d = q
  split_ifs <;> push_cast <;> ring

theorem roundMultiple_of_dvd {d n : ℕ} (h : d ∣ n) : roundMultiple d n = n := by
  obtain ⟨k, rfl⟩ := h
  rcases Nat.eq_zero_or_pos d with rfl | hd
  · simp [roundMultiple]
  · rw [roundMultiple, Nat.mul_mod_right, if_pos (Or.inl (by omega)), Nat.mul_div_cancel_left k hd,
      Nat.mul_comm]

/-- A multiple of twice the distance is kept apart. -/
theorem roundMultiple_add {d : ℕ} (hd : 0 < d) (q r : ℕ) :
    roundMultiple d (2 * d * q + r) = 2 * d * q + roundMultiple d r := by
  have hform : 2 * d * q + r = r + d * (2 * q) := by ring
  have hdiv : (2 * d * q + r) / d = r / d + 2 * q := by rw [hform, Nat.add_mul_div_left _ _ hd]
  have hmod : (2 * d * q + r) % d = r % d := by rw [hform, Nat.add_mul_mod_self_left]
  have heven : (r / d + 2 * q) % 2 = r / d % 2 := by omega
  unfold roundMultiple
  rw [hdiv, hmod, heven]
  split_ifs <;> ring

section bounds

variable {d k n : ℕ}

theorem roundMultiple_cases (d n : ℕ) :
    roundMultiple d n = n / d * d ∨ roundMultiple d n = (n / d + 1) * d := by
  unfold roundMultiple
  split_ifs
  · exact Or.inl rfl
  · exact Or.inr rfl

theorem le_roundMultiple (hk : d ∣ k) (h : k ≤ n) : k ≤ roundMultiple d n := by
  obtain ⟨c, rfl⟩ := hk
  rcases Nat.eq_zero_or_pos d with rfl | hd
  · simp
  · have hc : c ≤ n / d := (Nat.le_div_iff_mul_le hd).mpr (by rwa [Nat.mul_comm])
    have hle : d * c ≤ n / d * d := by
      rw [Nat.mul_comm]
      exact Nat.mul_le_mul_right d hc
    rcases roundMultiple_cases d n with heq | heq <;> rw [heq]
    · exact hle
    · exact hle.trans (Nat.mul_le_mul_right d (Nat.le_succ _))

theorem roundMultiple_le (hk : d ∣ k) (h : n ≤ k) : roundMultiple d n ≤ k := by
  rcases h.eq_or_lt with rfl | hlt
  · rw [roundMultiple_of_dvd hk]
  · obtain ⟨c, rfl⟩ := hk
    have hc : n / d < c := Nat.div_lt_of_lt_mul hlt
    have hle : (n / d + 1) * d ≤ d * c := by
      rw [Nat.mul_comm d c]
      exact Nat.mul_le_mul_right d hc
    rcases roundMultiple_cases d n with heq | heq <;> rw [heq]
    · exact (Nat.mul_le_mul_right d (Nat.le_succ _)).trans hle
    · exact hle

theorem roundMultiple_of_lt {q r : ℕ} (h : 2 * r < d) : roundMultiple d (d * q + r) = d * q := by
  have hlt : r < d := by omega
  have hdiv : (d * q + r) / d = q := by
    rw [Nat.mul_add_div (by omega), Nat.div_eq_of_lt hlt, Nat.add_zero]
  rw [roundMultiple, Nat.mul_add_mod, Nat.mod_eq_of_lt hlt, if_pos (Or.inl h), hdiv, Nat.mul_comm]

theorem roundMultiple_of_gt {q r : ℕ} (h : d < 2 * r) (hr : r ≤ d) :
    roundMultiple d (d * q + r) = d * (q + 1) := by
  rcases hr.eq_or_lt with rfl | hlt
  · rw [← Nat.mul_succ]
    exact roundMultiple_of_dvd (dvd_mul_right r (q + 1))
  · have hdiv : (d * q + r) / d = q := by
      rw [Nat.mul_add_div (by omega), Nat.div_eq_of_lt hlt, Nat.add_zero]
    rw [roundMultiple, Nat.mul_add_mod, Nat.mod_eq_of_lt hlt, if_neg (by omega), hdiv, Nat.mul_comm]

theorem roundMultiple_of_eq {q r : ℕ} (h : 2 * r = d) (hd : 0 < d) :
    roundMultiple d (d * q + r) = if q % 2 = 0 then d * q else d * (q + 1) := by
  have hlt : r < d := by omega
  have hdiv : (d * q + r) / d = q := by
    rw [Nat.mul_add_div hd, Nat.div_eq_of_lt hlt, Nat.add_zero]
  rw [roundMultiple, Nat.mul_add_mod, Nat.mod_eq_of_lt hlt, hdiv]
  simp only [h, lt_irrefl, false_or, true_and, Nat.mul_comm]

/-- The number below an even multiple is rounded to it. -/
theorem roundMultiple_pred {c : ℕ} (hd : 2 ≤ d) (hc : 0 < c) :
    roundMultiple d (2 * d * c - 1) = 2 * d * c := by
  obtain ⟨k, rfl⟩ := Nat.exists_eq_succ_of_ne_zero hc.ne'
  have hsplit : 2 * d * (k + 1) = d * (2 * k + 1) + d := by ring
  have hlast : 2 * d * (k + 1) - 1 = d * (2 * k + 1) + (d - 1) := by omega
  rw [Nat.succ_eq_add_one, hlast]
  rcases (by omega : d ≤ 2 * (d - 1)).lt_or_eq with hlt | heq
  · rw [roundMultiple_of_gt hlt (by omega), Nat.mul_succ, hsplit]
  · rw [roundMultiple_of_eq heq.symm (by omega), if_neg (by omega), Nat.mul_succ, hsplit]

end bounds

/-! ## Rounding twice -/

/-- Rounded to a multiple of `d` the number is in the middle between two multiples of `t`, from
where the rounding to even leads away from it. -/
def Misrounds (d t n : ℕ) : Prop :=
  if n / t % 2 = 0 then t < 2 * (n % t) ∧ 2 * (n % t) ≤ t + d
  else 2 * (n % t) < t ∧ t ≤ 2 * (n % t) + d

instance (d t n : ℕ) : Decidable (Misrounds d t n) := by
  unfold Misrounds
  infer_instance

/-- Where the middle `d * e` between two multiples of `2 * d * e` is an even multiple of `d`, the
numbers within half of `d` are rounded to it. -/
theorem roundMultiple_compare {d e r : ℕ} (hd : 0 < d) (he : e % 2 = 0) :
    (2 * r + d < 2 * (d * e) → roundMultiple d r < d * e) ∧
      (2 * (d * e) ≤ 2 * r + d → 2 * r ≤ 2 * (d * e) + d → roundMultiple d r = d * e) ∧
      (2 * (d * e) + d < 2 * r → d * e < roundMultiple d r) := by
  obtain ⟨q, s, hs, rfl⟩ : ∃ q s, s < d ∧ r = d * q + s :=
    ⟨r / d, r % d, Nat.mod_lt r hd, (Nat.div_add_mod r d).symm⟩
  rcases Nat.lt_or_ge (q + 1) e with hlt | hge
  · -- more than one multiple below
    obtain ⟨k, rfl⟩ := Nat.exists_eq_add_of_lt hlt
    have hk : d * (q + 1 + k + 1) = d * q + 2 * d + d * k := by ring
    have hup : roundMultiple d (d * q + s) ≤ d * (q + 1) :=
      roundMultiple_le (dvd_mul_right d (q + 1)) (by rw [Nat.mul_succ]; omega)
    rw [Nat.mul_succ] at hup
    rw [hk]
    refine ⟨fun _ => by omega, fun h _ => by omega, fun h => by omega⟩
  · rcases Nat.lt_or_ge e (q + 1) with hlt | hge'
    · obtain ⟨k, hk⟩ := Nat.exists_eq_add_of_le (Nat.le_of_lt_succ hlt)
      subst hk
      rcases Nat.eq_zero_or_pos k with rfl | hpos
      · -- at the middle or above it by less than `d`
        rw [Nat.add_zero]
        refine ⟨fun h => by omega, fun _ h => ?_, fun h => ?_⟩
        · rcases (by omega : 2 * s ≤ d).lt_or_eq with hlow | hmid
          · exact roundMultiple_of_lt hlow
          · rw [roundMultiple_of_eq hmid hd, if_pos he]
        · rw [roundMultiple_of_gt (by omega) hs.le, Nat.mul_succ]
          omega
      · have hle : d * (e + 1) ≤ d * (e + k) := Nat.mul_le_mul_left d (by omega)
        have hdown : d * (e + k) ≤ roundMultiple d (d * (e + k) + s) :=
          le_roundMultiple (dvd_mul_right d _) (Nat.le_add_right _ _)
        rw [Nat.mul_succ] at hle
        refine ⟨fun h => by omega, fun _ h => by omega, fun _ => by omega⟩
    · -- below the middle by at most `d`
      obtain rfl : e = q + 1 := by omega
      have hodd : q % 2 ≠ 0 := by omega
      rw [Nat.mul_succ]
      refine ⟨fun h => ?_, fun h _ => ?_, fun h => by omega⟩
      · rw [roundMultiple_of_lt (by omega)]
        omega
      · rcases (by omega : d ≤ 2 * s).lt_or_eq with hhigh | hmid
        · rw [roundMultiple_of_gt hhigh hs.le, Nat.mul_succ]
        · rw [roundMultiple_of_eq hmid.symm hd, if_neg hodd, Nat.mul_succ]

/-- Rounding to multiples of `d` first makes a difference for the numbers that it moves to the
wrong side of a middle. -/
theorem roundMultiple_roundMultiple_iff {d e : ℕ} (hd : 0 < d) (he₀ : 0 < e) (he : e % 2 = 0)
    (n : ℕ) :
    roundMultiple (2 * d * e) (roundMultiple d n) = roundMultiple (2 * d * e) n ↔
      ¬ Misrounds d (2 * d * e) n := by
  have ht : 2 * d * e = 2 * (d * e) := by ring
  have hde : 0 < d * e := Nat.mul_pos hd he₀
  obtain ⟨q, r, hr, rfl⟩ : ∃ q r, r < 2 * d * e ∧ n = 2 * d * e * q + r :=
    ⟨n / (2 * d * e), n % (2 * d * e), Nat.mod_lt n (by omega), (Nat.div_add_mod n _).symm⟩
  have hmove : roundMultiple d (2 * d * e * q + r) = 2 * d * e * q + roundMultiple d r := by
    rw [Nat.mul_assoc (2 * d) e q]
    exact roundMultiple_add hd (e * q) r
  have hdiv : (2 * d * e * q + r) / (2 * d * e) = q := by
    rw [Nat.mul_add_div (by omega), Nat.div_eq_of_lt hr, Nat.add_zero]
  have hmod : (2 * d * e * q + r) % (2 * d * e) = r := by
    rw [Nat.mul_add_mod, Nat.mod_eq_of_lt hr]
  have hle : roundMultiple d r ≤ 2 * d * e :=
    roundMultiple_le ⟨2 * e, by ring⟩ hr.le
  obtain ⟨hbelow, hmid, habove⟩ := roundMultiple_compare (r := r) hd he
  rw [Misrounds, hmove, hdiv, hmod]
  generalize roundMultiple d r = r' at *
  rw [ht] at *
  generalize d * e = m at *
  have hdown : ∀ {x : ℕ}, x < m → roundMultiple (2 * m) (2 * m * q + x) = 2 * m * q :=
    fun hx => roundMultiple_of_lt (by omega)
  have hup : ∀ {x : ℕ}, m < x → x ≤ 2 * m →
      roundMultiple (2 * m) (2 * m * q + x) = 2 * m * (q + 1) :=
    fun hx hx' => roundMultiple_of_gt (by omega) hx'
  have htie : roundMultiple (2 * m) (2 * m * q + m) =
      if q % 2 = 0 then 2 * m * q else 2 * m * (q + 1) := roundMultiple_of_eq rfl (by omega)
  have hne : 2 * m * q ≠ 2 * m * (q + 1) := by
    rw [Nat.mul_succ]
    omega
  rcases Nat.lt_or_ge (2 * r + d) (2 * m) with hlow | hge
  · rw [hdown (hbelow hlow), hdown (by omega)]
    split_ifs <;> simp <;> omega
  · rcases Nat.lt_or_ge (2 * m + d) (2 * r) with hhigh | hle'
    · rw [hup (habove hhigh) hle, hup (by omega) hr.le]
      split_ifs <;> simp <;> omega
    · -- the first rounding leads to the middle
      rw [hmid hge hle', htie]
      rcases Nat.lt_trichotomy r m with hlt | rfl | hgt
      · rw [hdown hlt]
        split_ifs with heven
        · simp only [true_iff]
          omega
        · simp only [hne.symm, false_iff, not_not]
          omega
      · rw [htie]
        split_ifs <;> simp
      · rw [hup hgt hr.le]
        split_ifs with heven
        · simp only [hne, false_iff, not_not]
          omega
        · simp only [true_iff]
          omega

/-! ## Significant bits -/

/-- The distance of the numbers with `p` significant bits at `x`. -/
def ulp (p : ℕ) (x : ℚ) : ℚ := 2 ^ (Int.log 2 |x| + 1 - p)

/-- The nearest number with `p` significant bits, ties to even. -/
def roundBinary (p : ℕ) (x : ℚ) : ℚ := roundHalfEven (x / ulp p x) * ulp p x

/-- A number with at most `p` significant bits. -/
def ShortBinary (p : ℕ) (x : ℚ) : Prop := ∃ m e : ℤ, |m| < 2 ^ p ∧ x = m * 2 ^ e

theorem ulp_pos (p : ℕ) (x : ℚ) : 0 < ulp p x := by
  unfold ulp
  positivity

theorem abs_lt_ulp (p : ℕ) (x : ℚ) : |x| < 2 ^ p * ulp p x := by
  have h := Int.lt_zpow_succ_log_self (b := 2) (by norm_num) |x|
  have hpow : (2 : ℚ) ^ p * ulp p x = 2 ^ (Int.log 2 |x| + 1) := by
    rw [ulp, ← zpow_natCast, ← zpow_add₀ (by norm_num)]
    congr 1
    ring
  rw [hpow]
  exact_mod_cast h

theorem ShortBinary.mono {p q : ℕ} (hpq : p ≤ q) {x : ℚ} (h : ShortBinary p x) :
    ShortBinary q x := by
  obtain ⟨m, e, hm, rfl⟩ := h
  exact ⟨m, e, hm.trans_le (pow_le_pow_right₀ (by decide) hpq), rfl⟩

/-- What has few bits is a multiple of the distance. -/
theorem ShortBinary.exists_mul_ulp {p : ℕ} {x : ℚ} (h : ShortBinary p x) :
    ∃ k : ℤ, x = k * ulp p x := by
  obtain ⟨m, e, hm, hx⟩ := h
  rcases eq_or_ne x 0 with rfl | hne
  · exact ⟨0, by simp⟩
  · have he : Int.log 2 |x| + 1 - p ≤ e := by
      by_contra hlt
      have hlog : (2 : ℚ) ^ Int.log 2 |x| ≤ |x| := by
        exact_mod_cast Int.zpow_log_le_self (b := 2) (by norm_num) (abs_pos.mpr hne)
      have hpow : (0 : ℚ) < 2 ^ e := by positivity
      have hm' : (|m| : ℚ) < 2 ^ p := by exact_mod_cast hm
      have habs : |x| < 2 ^ (e + p) := by
        rw [hx, abs_mul, abs_of_pos hpow, zpow_add₀ (by norm_num), zpow_natCast, mul_comm]
        exact mul_lt_mul_of_pos_left hm' hpow
      have hmono : (2 : ℚ) ^ (e + p) ≤ 2 ^ Int.log 2 |x| :=
        zpow_le_zpow_right₀ (by norm_num) (by omega)
      linarith
    obtain ⟨j, hj⟩ := Int.eq_ofNat_of_zero_le (sub_nonneg.mpr he)
    refine ⟨m * 2 ^ j, ?_⟩
    have hsplit : (2 : ℚ) ^ e = 2 ^ j * ulp p x := by
      rw [ulp, ← zpow_natCast, ← zpow_add₀ (by norm_num)]
      congr 1
      omega
    calc x = m * 2 ^ e := hx
      _ = m * (2 ^ j * ulp p x) := by rw [hsplit]
      _ = (m * 2 ^ j : ℤ) * ulp p x := by
          push_cast
          ring

theorem roundBinary_of_short {p : ℕ} {x : ℚ} (h : ShortBinary p x) : roundBinary p x = x := by
  obtain ⟨k, hk⟩ := h.exists_mul_ulp
  have hdiv : x / ulp p x = k := (div_eq_iff (ulp_pos p x).ne').mpr hk
  rw [roundBinary, hdiv, roundHalfEven_intCast, ← hk]

theorem abs_roundHalfEven_le {x : ℚ} {k : ℕ} (h : |x| < k) : |roundHalfEven x| ≤ k := by
  obtain ⟨hlo, hhi⟩ := abs_lt.mp h
  have hfloor : ⌊x⌋ < k := Int.floor_lt.mpr (by exact_mod_cast hhi)
  have hfloor' : -(k : ℤ) ≤ ⌊x⌋ := Int.le_floor.mpr (by
    push_cast
    exact hlo.le)
  rw [abs_le]
  unfold roundHalfEven
  split_ifs <;> constructor <;> omega

/-- What is rounded to `p` bits has at most `p` bits; a carry leaves a power of two. -/
theorem short_roundBinary (p : ℕ) [NeZero p] (x : ℚ) : ShortBinary p (roundBinary p x) := by
  have hx : |x / ulp p x| < (2 ^ p : ℕ) := by
    rw [abs_div, abs_of_pos (ulp_pos p x), div_lt_iff₀ (ulp_pos p x)]
    push_cast
    exact abs_lt_ulp p x
  have hround := abs_roundHalfEven_le hx
  push_cast at hround
  rcases hround.lt_or_eq with hlt | heq
  · exact ⟨_, Int.log 2 |x| + 1 - p, hlt, rfl⟩
  · have hsign : roundHalfEven (x / ulp p x) = (roundHalfEven (x / ulp p x)).sign * 2 ^ p := by
      rw [← heq]
      exact (Int.sign_mul_abs _).symm
    refine ⟨(roundHalfEven (x / ulp p x)).sign, Int.log 2 |x| + 1, ?_, ?_⟩
    · have hone : 1 < 2 ^ p := Nat.one_lt_two_pow (NeZero.ne p)
      have hle : |(roundHalfEven (x / ulp p x)).sign| ≤ 1 := by
        rcases Int.sign_trichotomy (roundHalfEven (x / ulp p x)) with h | h | h <;>
          rw [h] <;> decide
      exact_mod_cast hle.trans_lt (by exact_mod_cast hone)
    · have hpow : (2 : ℚ) ^ p * ulp p x = 2 ^ (Int.log 2 |x| + 1) := by
        rw [ulp, ← zpow_natCast, ← zpow_add₀ (by norm_num)]
        congr 1
        ring
      unfold roundBinary
      rw [← hpow]
      generalize roundHalfEven (x / ulp p x) = k at *
      rw [hsign, ← mul_assoc, Int.cast_mul]
      push_cast
      rw [← hsign]

/-- The distance of the multiples to which natural numbers of the size of `n` are rounded. -/
def unitBinary (p n : ℕ) : ℕ := 2 ^ (Nat.log 2 n + 1 - p)

theorem unitBinary_pos (p n : ℕ) : 0 < unitBinary p n := Nat.two_pow_pos _

theorem shortBinary_natCast {p n : ℕ} (h : n < 2 ^ p) : ShortBinary p n :=
  ⟨n, 0, by rw [Nat.abs_cast]; exact_mod_cast h, by simp⟩

/-- A carry to the next power of two needs no further bit. -/
theorem shortBinary_mul_pow {p k : ℕ} (hp : 0 < p) (h : k ≤ 2 ^ p) (s : ℕ) :
    ShortBinary p (k * 2 ^ s : ℕ) := by
  rcases h.lt_or_eq with hlt | rfl
  · refine ⟨k, s, by rw [Nat.abs_cast]; exact_mod_cast hlt, ?_⟩
    push_cast
    rw [zpow_natCast]
  · refine ⟨1, (p + s : ℕ), ?_, ?_⟩
    · rw [abs_one]
      exact one_lt_pow₀ (by norm_num) hp.ne'
    · rw [zpow_natCast, pow_add]
      push_cast
      ring

theorem roundBinary_natCast (p n : ℕ) :
    roundBinary p n = (roundMultiple (unitBinary p n) n : ℕ) := by
  rcases Nat.eq_zero_or_pos n with rfl | hpos
  · rw [roundBinary_of_short (shortBinary_natCast (Nat.two_pow_pos p)),
      roundMultiple_of_dvd (dvd_zero _)]
  · rcases Nat.lt_or_ge n (2 ^ p) with hlt | hge
    · have hlog := Nat.log_lt_of_lt_pow hpos.ne' hlt
      have hunit : unitBinary p n = 1 := by
        rw [unitBinary, Nat.sub_eq_zero_of_le hlog, pow_zero]
      rw [roundBinary_of_short (shortBinary_natCast hlt), hunit, roundMultiple_of_dvd (one_dvd n)]
    · have hlog : p ≤ Nat.log 2 n := Nat.le_log_of_pow_le (by decide) hge
      have hulp : ulp p n = (unitBinary p n : ℕ) := by
        rw [ulp, Nat.abs_cast, Int.log_natCast, unitBinary, Nat.cast_pow, ← zpow_natCast]
        congr 1
        omega
      rw [roundBinary, hulp, roundHalfEven_div (unitBinary_pos p n)]

/-- A number between two powers of two, of which the second is rounded as if it were below it. -/
theorem roundBinary_natCast_of_le {p l n : ℕ} (hlo : 2 ^ l ≤ n) (hhi : n ≤ 2 ^ (l + 1))
    (hp : 0 < p) : roundBinary p n = (roundMultiple (2 ^ (l + 1 - p)) n : ℕ) := by
  rcases hhi.lt_or_eq with hlt | rfl
  · rw [roundBinary_natCast, unitBinary, Nat.log_eq_of_pow_le_of_lt_pow hlo hlt]
  · rw [roundBinary_natCast, unitBinary, Nat.log_pow (by decide),
      roundMultiple_of_dvd (pow_dvd_pow 2 (by omega)),
      roundMultiple_of_dvd (pow_dvd_pow 2 (by omega))]

/-- Rounding to `q` bits before rounding to `p` bits makes a difference for the numbers with more
than `q` bits that the first rounding moves to a middle. -/
theorem roundBinary_roundBinary_iff {p q : ℕ} (hp : 0 < p) (hq : p + 2 ≤ q) (n : ℕ) :
    roundBinary p (roundBinary q n) = roundBinary p n ↔
      ¬ (2 ^ q ≤ n ∧ Misrounds (unitBinary q n) (unitBinary p n) n) := by
  rcases Nat.lt_or_ge n (2 ^ q) with hlt | hge
  · rw [roundBinary_of_short (shortBinary_natCast hlt)]
    simp [hlt]
  · have hpos : n ≠ 0 := by
      have := Nat.two_pow_pos q
      omega
    have hlog : q ≤ Nat.log 2 n := Nat.le_log_of_pow_le (by decide) hge
    have hlo : 2 ^ Nat.log 2 n ≤ n := Nat.pow_log_le_self 2 hpos
    have hhi : n ≤ 2 ^ (Nat.log 2 n + 1) := (Nat.lt_pow_succ_log_self (by decide) n).le
    have hmid : roundBinary q n = (roundMultiple (unitBinary q n) n : ℕ) := roundBinary_natCast q n
    have hlo' : 2 ^ Nat.log 2 n ≤ roundMultiple (unitBinary q n) n :=
      le_roundMultiple (pow_dvd_pow 2 (by omega)) hlo
    have hhi' : roundMultiple (unitBinary q n) n ≤ 2 ^ (Nat.log 2 n + 1) :=
      roundMultiple_le (pow_dvd_pow 2 (by omega)) hhi
    have hunit : unitBinary p n = 2 * unitBinary q n * 2 ^ (q - p - 1) := by
      rw [unitBinary, unitBinary, ← pow_succ', ← pow_add]
      congr 1
      omega
    have heven : 2 ^ (q - p - 1) % 2 = 0 := by
      obtain ⟨k, hk⟩ : ∃ k, q - p - 1 = k + 1 := ⟨q - p - 2, by omega⟩
      rw [hk, pow_succ, Nat.mul_mod_left]
    have hiff := roundMultiple_roundMultiple_iff (unitBinary_pos q n)
      (Nat.two_pow_pos (q - p - 1)) heven n
    rw [← hunit] at hiff
    rw [hmid, roundBinary_natCast_of_le hlo' hhi' hp, roundBinary_natCast p n, ← unitBinary,
      Nat.cast_inj, hiff]
    simp [hge]

/-- The numbers with at most `p` significant bits. -/
structure Binary (p : ℕ) where
  value : ℚ
  short : ShortBinary p value

namespace Binary

variable {p : ℕ} [NeZero p]

def round (p : ℕ) [NeZero p] (x : ℚ) : Binary p := ⟨roundBinary p x, short_roundBinary p x⟩

def add (a b : Binary p) : Binary p := round p (a.value + b.value)
def sub (a b : Binary p) : Binary p := round p (a.value - b.value)
def mul (a b : Binary p) : Binary p := round p (a.value * b.value)

/-- An operation whose result has few bits is exact. -/
theorem value_round_of_short {x : ℚ} (h : ShortBinary p x) : (round p x).value = x :=
  roundBinary_of_short h

end Binary

end Llxvm
