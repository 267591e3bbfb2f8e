import Calculator.Double.Basic

/-!
# Rounding

What the rounding of a ratio depends on, and which ratios round to a given number.

* `roundHalfEven_bounds`: a ratio is rounded by half a step at most.
* `roundHalfEven_eq`: what lies at most half a step from a natural number rounds to it.
* `KeepsPrecision.mul_two_pow`, `KeepsPrecision.two_pow_dvd`: numbers of at most 53 significant bits.
* `roundToPrecision_eq`: what lies between the points halfway to the neighbours of a number with at
  most 53 significant bits rounds to it.
* `roundToPrecision_mul_two_pow`: the rounding moves with the exponent.
* `roundToPrecision_two_pow`: what has at most 53 significant bits loses only its fraction.
* `Double.ofRatio_eq_of_mul_eq`: equal ratios are rounded alike.
* `Double.ofRatio_eq_infinite`, `Double.ofRatio_eq_zero`: what lies beyond either end of the range.
-/

namespace Calculator

/-! ## Rounding to natural numbers -/

/-- Rounding half to even moves a ratio by half a step at most. -/
theorem roundHalfEven_bounds (a : Nat) {b : Nat} (hb : 0 < b) :
    2 * (roundHalfEven a b * b) ≤ 2 * a + b ∧ 2 * a ≤ 2 * (roundHalfEven a b * b) + b := by
  have ha := Nat.div_add_mod a b
  have hr := Nat.mod_lt a hb
  rw [Nat.mul_comm b (a / b)] at ha
  unfold roundHalfEven
  split
  · omega
  · rw [Nat.add_mul, Nat.one_mul]
    omega

/-- What lies at most half a step from `k` rounds to `k`; a tie does if `k` is even. -/
theorem roundHalfEven_eq {a b k : Nat} (hb : 0 < b) (hlow : 2 * (k * b) ≤ 2 * a + b)
    (hhigh : 2 * a ≤ 2 * (k * b) + b)
    (htie : 2 * (k * b) = 2 * a + b ∨ 2 * a = 2 * (k * b) + b → k % 2 = 0) :
    roundHalfEven a b = k := by
  have ha := Nat.div_add_mod a b
  have hr := Nat.mod_lt a hb
  rw [Nat.mul_comm b (a / b)] at ha
  have hle : a / b ≤ k := by
    refine Nat.not_lt.1 fun hlt => ?_
    have := Nat.mul_le_mul_right b (Nat.succ_le_of_lt hlt)
    rw [Nat.succ_mul] at this
    omega
  have hge : k ≤ a / b + 1 := by
    refine Nat.not_lt.1 fun hlt => ?_
    have := Nat.mul_le_mul_right b (Nat.succ_le_of_lt hlt)
    rw [Nat.succ_mul, Nat.succ_mul] at this
    omega
  unfold roundHalfEven
  rcases Nat.lt_or_eq_of_le hle with hlt | heq
  · obtain rfl : k = a / b + 1 := by omega
    rw [Nat.add_mul, Nat.one_mul] at hlow htie hhigh
    rw [if_neg (by omega)]
  · subst heq
    rw [if_pos (by omega)]

/-- Equal ratios are rounded alike. -/
theorem roundHalfEven_mul_right {c : Nat} (hc : 0 < c) (a b : Nat) :
    roundHalfEven (a * c) (b * c) = roundHalfEven a b := by
  unfold roundHalfEven
  rw [Nat.mul_mod_mul_right, Nat.mul_div_mul_right _ _ hc, ← Nat.mul_assoc]
  simp only [Nat.mul_lt_mul_right hc, Nat.mul_left_inj (Nat.ne_of_gt hc)]

theorem roundHalfEven_mul_self (k : Nat) {b : Nat} (hb : 0 < b) : roundHalfEven (k * b) b = k := by
  refine roundHalfEven_eq hb ?_ ?_ ?_ <;> omega

theorem roundToPrecision_mul_right {c : Nat} (hc : 0 < c) (a b : Nat) :
    roundToPrecision (a * c) (b * c) = roundToPrecision a b := by
  unfold roundToPrecision
  rw [Nat.mul_div_mul_right _ _ hc, Nat.mul_right_comm, roundHalfEven_mul_right hc]

/-! ## Rounding to 53 bits -/

theorem surplusBits_eq {n u : Nat} (hlt : n < 2 ^ (53 + u)) (hle : u = 0 ∨ 2 ^ (52 + u) ≤ n) :
    surplusBits n = u := by
  unfold surplusBits
  rcases Nat.eq_zero_or_pos n with rfl | hpos
  · have := Nat.two_pow_pos (52 + u)
    rw [Nat.log2_zero]
    omega
  have h1 := (Nat.log2_lt (Nat.ne_of_gt hpos)).2 hlt
  rcases hle with rfl | hle
  · omega
  · have h2 := (Nat.le_log2 (Nat.ne_of_gt hpos)).2 hle
    omega

/-- The steps of a number with at most 53 significant bits. -/
theorem KeepsPrecision.eq_mul {n : Nat} (h : KeepsPrecision n) :
    n / 2 ^ surplusBits n * 2 ^ surplusBits n = n :=
  Nat.div_mul_cancel (Nat.dvd_of_mod_eq_zero h)

theorem div_two_pow_surplusBits_lt (n : Nat) : n / 2 ^ surplusBits n < 2 ^ 53 := by
  refine Nat.div_lt_of_lt_mul ?_
  rw [← Nat.pow_add, Nat.add_comm]
  exact lt_two_pow_surplusBits n

theorem le_div_two_pow_surplusBits {n : Nat} (h : surplusBits n ≠ 0) :
    2 ^ 52 ≤ n / 2 ^ surplusBits n := by
  refine (Nat.le_div_iff_mul_le (Nat.two_pow_pos _)).2 ?_
  have hn : n ≠ 0 := by rintro rfl; exact h rfl
  rw [← Nat.pow_add, ← Nat.le_log2 hn]
  unfold surplusBits at h ⊢
  omega

theorem KeepsPrecision.mul_two_pow {n : Nat} (h : KeepsPrecision n) (u : Nat) :
    KeepsPrecision (n * 2 ^ u) := by
  rw [← h.eq_mul, Nat.mul_assoc, ← Nat.pow_add]
  exact keepsPrecision_mul_two_pow (Nat.le_of_lt (div_two_pow_surplusBits_lt n))

/-- A number of at most 53 significant bits is a multiple of its last bit, and of each below it. -/
theorem KeepsPrecision.two_pow_dvd {n u : Nat} (h : KeepsPrecision n) (hle : 2 ^ (52 + u) ≤ n) :
    2 ^ u ∣ n := by
  have hn : n ≠ 0 := by have := Nat.two_pow_pos (52 + u); omega
  have hlog := (Nat.le_log2 hn).2 hle
  refine Nat.dvd_trans (Nat.pow_dvd_pow 2 ?_) (Nat.dvd_of_mod_eq_zero h)
  unfold surplusBits
  omega

/-- A ratio half a step from `n` at most lies in its binade, unless it lies below the least number
of the binade. -/
theorem surplusBits_div_eq {a b n : Nat} (hb : 0 < b) (hn : KeepsPrecision n)
    (hlow : 2 * (n * b) ≤ 2 * a + b * 2 ^ surplusBits n)
    (hhigh : 2 * a ≤ 2 * (n * b) + b * 2 ^ surplusBits n)
    (hbottom : n = 2 ^ 52 * 2 ^ surplusBits n → 1 < 2 ^ surplusBits n → n * b ≤ a) :
    surplusBits (a / b) = surplusBits n := by
  have hk : n / 2 ^ surplusBits n * (b * 2 ^ surplusBits n) = n * b := by
    conv => rhs; rw [← hn.eq_mul]
    rw [Nat.mul_comm b, Nat.mul_assoc]
  have hbs := Nat.mul_pos hb (Nat.two_pow_pos (surplusBits n))
  have hlt := Nat.mul_le_mul_right (b * 2 ^ surplusBits n) (div_two_pow_surplusBits_lt n)
  rw [Nat.succ_mul, hk] at hlt
  have hpow : ∀ j, 2 ^ (j + surplusBits n) * b = 2 ^ j * (b * 2 ^ surplusBits n) := fun j => by
    rw [Nat.pow_add, Nat.mul_assoc, Nat.mul_comm b]
  refine surplusBits_eq ?_ ?_
  · rw [Nat.div_lt_iff_lt_mul hb, hpow]
    omega
  rcases Nat.eq_zero_or_pos (surplusBits n) with h0 | hpos
  · exact .inl h0
  refine .inr ?_
  rw [Nat.le_div_iff_mul_le hb, hpow]
  rcases Nat.lt_or_eq_of_le (le_div_two_pow_surplusBits (Nat.ne_of_gt hpos)) with hgt | heq
  · have hge := Nat.mul_le_mul_right (b * 2 ^ surplusBits n) hgt
    rw [Nat.succ_mul, hk] at hge
    omega
  · rw [← heq] at hk
    rw [hk]
    refine hbottom ?_ (Nat.one_lt_two_pow (Nat.ne_of_gt hpos))
    rw [heq, hn.eq_mul]

/-- A ratio in the binade of `n` rounds to `n` when it lies at most half a step from it. -/
theorem roundToPrecision_eq_of_surplusBits_eq {a b n : Nat} (hb : 0 < b) (hn : KeepsPrecision n)
    (hs : surplusBits (a / b) = surplusBits n)
    (hlow : 2 * (n * b) ≤ 2 * a + b * 2 ^ surplusBits n)
    (hhigh : 2 * a ≤ 2 * (n * b) + b * 2 ^ surplusBits n)
    (htie : 2 * (n * b) = 2 * a + b * 2 ^ surplusBits n ∨
      2 * a = 2 * (n * b) + b * 2 ^ surplusBits n → n / 2 ^ surplusBits n % 2 = 0) :
    roundToPrecision a b = n := by
  have hk : n / 2 ^ surplusBits n * (b * 2 ^ surplusBits n) = n * b := by
    conv => rhs; rw [← hn.eq_mul]
    rw [Nat.mul_comm b, Nat.mul_assoc]
  rw [← hk] at hlow hhigh htie
  have hbs := Nat.mul_pos hb (Nat.two_pow_pos (surplusBits n))
  rw [roundToPrecision, hs, roundHalfEven_eq hbs hlow hhigh htie, hn.eq_mul]

/-- A ratio just below the least number of a binade rounds to that number when it lies at most half
a step of the binade below from it. -/
theorem roundToPrecision_eq_of_lt_binade {a b u : Nat} (hb : 0 < b)
    (hlt : a < 2 ^ 52 * 2 ^ (u + 1) * b)
    (hlow : 2 * (2 ^ 52 * 2 ^ (u + 1) * b) ≤ 2 * a + b * 2 ^ u) :
    roundToPrecision a b = 2 ^ 52 * 2 ^ (u + 1) := by
  have hn : 2 ^ 52 * 2 ^ (u + 1) = 2 ^ 53 * 2 ^ u := by
    rw [← Nat.pow_add, ← Nat.pow_add]
    congr 1
    omega
  have hnb : 2 ^ 53 * 2 ^ u * b = 2 ^ 53 * (b * 2 ^ u) := by rw [Nat.mul_assoc, Nat.mul_comm b]
  have hbu := Nat.mul_pos hb (Nat.two_pow_pos u)
  rw [hn, hnb] at hlt hlow
  have hs : surplusBits (a / b) = u := by
    refine surplusBits_eq ?_ (.inr ?_)
    · rw [Nat.div_lt_iff_lt_mul hb, Nat.pow_add, hnb]
      exact hlt
    · rw [Nat.le_div_iff_mul_le hb, Nat.pow_add, Nat.mul_assoc, Nat.mul_comm _ b]
      omega
  have hk : roundHalfEven a (b * 2 ^ u) = 2 ^ 53 :=
    roundHalfEven_eq hbu (by omega) (by omega) fun _ => by decide
  rw [hn, roundToPrecision, hs, hk]

/-- **What rounds to a number.** A ratio rounds to `n` when it lies between the points halfway to
the neighbours of `n`, or on one of them if the significand is even. The neighbour below is twice as
near where `n` is the least number with its exponent. -/
theorem roundToPrecision_eq {a b n below : Nat} (hb : 0 < b) (hn : KeepsPrecision n)
    (hbelow : below = if n = 2 ^ 52 * 2 ^ surplusBits n ∧ 1 < 2 ^ surplusBits n
      then 2 ^ surplusBits n else 2 * 2 ^ surplusBits n)
    (hlow : 4 * (n * b) ≤ 4 * a + below * b)
    (hhigh : 4 * a ≤ 4 * (n * b) + 2 * 2 ^ surplusBits n * b)
    (htie : 4 * (n * b) = 4 * a + below * b ∨ 4 * a = 4 * (n * b) + 2 * 2 ^ surplusBits n * b →
      n / 2 ^ surplusBits n % 2 = 0) :
    roundToPrecision a b = n := by
  have hbs := Nat.mul_pos hb (Nat.two_pow_pos (surplusBits n))
  have hstep : 2 * 2 ^ surplusBits n * b = 2 * (b * 2 ^ surplusBits n) := by
    rw [Nat.mul_assoc, Nat.mul_comm b]
  rw [hstep] at hhigh htie
  -- In the binade of `n` both neighbours are one step away, whatever lies below the binade.
  have hsame (hle : 2 * (n * b) ≤ 2 * a + b * 2 ^ surplusBits n)
      (hbottom : n = 2 ^ 52 * 2 ^ surplusBits n → 1 < 2 ^ surplusBits n → n * b ≤ a)
      (heq : 2 * (n * b) = 2 * a + b * 2 ^ surplusBits n → n / 2 ^ surplusBits n % 2 = 0) :
      roundToPrecision a b = n := by
    have hs := surplusBits_div_eq hb hn hle (by omega) hbottom
    exact roundToPrecision_eq_of_surplusBits_eq hb hn hs hle (by omega)
      fun h => h.elim heq fun h => htie (.inr (by omega))
  split at hbelow
  · next hbottom =>
    subst hbelow
    rw [Nat.mul_comm (2 ^ surplusBits n) b] at hlow htie
    rcases Nat.lt_or_ge a (n * b) with hlt | hge
    · obtain ⟨u, hu⟩ : ∃ u, surplusBits n = u + 1 := by
        refine ⟨surplusBits n - 1, ?_⟩
        have : surplusBits n ≠ 0 := by intro h; rw [h] at hbottom; omega
        omega
      obtain ⟨hbottom, -⟩ := hbottom
      rw [hu] at hbottom hlow
      rw [hbottom] at hlt hlow ⊢
      have hhalf : b * 2 ^ (u + 1) = 2 * (b * 2 ^ u) := by
        rw [Nat.pow_succ, ← Nat.mul_assoc, Nat.mul_comm]
      exact roundToPrecision_eq_of_lt_binade hb hlt (by omega)
    · exact hsame (by omega) (fun _ _ => hge) (by omega)
  · next hbottom =>
    rw [hbelow, hstep] at hlow htie
    exact hsame (by omega) (fun h h' => absurd ⟨h, h'⟩ hbottom) fun h => htie (.inl (by omega))

/-! ## Powers of two -/

/-- Ratios of fewer than 54 bits are rounded to integers. -/
theorem roundToPrecision_of_lt {a b : Nat} (h : a / b < 2 ^ 53) :
    roundToPrecision a b = roundHalfEven a b := by
  rw [roundToPrecision, surplusBits_eq (u := 0) h (.inl rfl), Nat.pow_zero, Nat.mul_one, Nat.mul_one]

/-- Bits appended to 53 bits or more are surplus. -/
theorem surplusBits_append {q n u : Nat} (hq : 2 ^ 52 ≤ q) (hlow : q * 2 ^ u ≤ n)
    (hhigh : n < (q + 1) * 2 ^ u) : surplusBits n = surplusBits q + u := by
  have hbottom : 2 ^ (52 + surplusBits q) ≤ q := by
    have hq0 : q ≠ 0 := by omega
    rw [← Nat.le_log2 hq0] at hq ⊢
    unfold surplusBits
    omega
  refine surplusBits_eq ?_ (.inr ?_)
  · refine Nat.lt_of_lt_of_le hhigh ?_
    rw [← Nat.add_assoc, Nat.pow_add]
    exact Nat.mul_le_mul_right _ (lt_two_pow_surplusBits q)
  · refine Nat.le_trans ?_ hlow
    rw [← Nat.add_assoc, Nat.pow_add]
    exact Nat.mul_le_mul_right _ hbottom

/-- The rounding moves with the exponent where it drops significant bits or none. -/
theorem roundToPrecision_mul_two_pow {a b : Nat} (hb : 0 < b) (h : 2 ^ 52 ≤ a / b) (u : Nat) :
    roundToPrecision (a * 2 ^ u) b = roundToPrecision a b * 2 ^ u := by
  have hsurplus : surplusBits (a * 2 ^ u / b) = surplusBits (a / b) + u := by
    refine surplusBits_append h ?_ ?_
    · rw [Nat.le_div_iff_mul_le hb, Nat.mul_right_comm]
      exact Nat.mul_le_mul_right _ (Nat.div_mul_le_self a b)
    · rw [Nat.div_lt_iff_lt_mul hb, Nat.mul_right_comm, Nat.mul_comm (a / b + 1)]
      exact Nat.mul_lt_mul_of_pos_right (Nat.lt_mul_div_succ a hb) (Nat.two_pow_pos u)
  rw [roundToPrecision, hsurplus, Nat.pow_add, ← Nat.mul_assoc, ← Nat.mul_assoc,
    roundHalfEven_mul_right (Nat.two_pow_pos u), roundToPrecision]

theorem roundToPrecision_self {n : Nat} (h : KeepsPrecision n) : roundToPrecision n 1 = n := by
  rw [roundToPrecision, Nat.div_one, Nat.one_mul]
  conv => lhs; arg 1; arg 1; rw [← h.eq_mul]
  rw [roundHalfEven_mul_self _ (Nat.two_pow_pos _), h.eq_mul]

/-- The rounding does not pass a power of two. -/
theorem roundToPrecision_le {a b k : Nat} (h : a / b < 2 ^ k) (hk : 53 ≤ k) :
    roundToPrecision a b ≤ 2 ^ k := by
  have hs : surplusBits (a / b) ≤ k := by
    rcases Nat.eq_zero_or_pos (a / b) with h0 | hpos
    · rw [h0]
      exact Nat.zero_le k
    · have := (Nat.log2_lt (Nat.ne_of_gt hpos)).2 h
      unfold surplusBits
      omega
  have hsplit : 2 ^ k = 2 ^ (k - surplusBits (a / b)) * 2 ^ surplusBits (a / b) := by
    rw [← Nat.pow_add, Nat.sub_add_cancel hs]
  rw [roundToPrecision, hsplit]
  refine Nat.mul_le_mul_right _ (Nat.le_trans (roundHalfEven_le_succ _ _) ?_)
  rw [← Nat.div_div_eq_div_mul, Nat.succ_le_iff, Nat.div_lt_iff_lt_mul (Nat.two_pow_pos _)]
  rwa [← hsplit]

/-- A number of at most 53 significant bits divided by a power of two loses only its fraction. -/
theorem roundToPrecision_two_pow {n : Nat} (h : KeepsPrecision n) (u : Nat) :
    roundToPrecision n (2 ^ u) = roundHalfEven n (2 ^ u) := by
  rcases Nat.lt_or_ge (n / 2 ^ u) (2 ^ 53) with hlt | hge
  · exact roundToPrecision_of_lt hlt
  have hsurplus : surplusBits n = surplusBits (n / 2 ^ u) + u := by
    refine surplusBits_append (by omega) (Nat.div_mul_le_self n _) ?_
    rw [Nat.mul_comm]
    exact Nat.lt_mul_div_succ n (Nat.two_pow_pos u)
  obtain ⟨k, hk⟩ : ∃ k, n = k * 2 ^ surplusBits (n / 2 ^ u) * 2 ^ u :=
    ⟨_, by rw [Nat.mul_assoc, ← Nat.pow_add, ← hsurplus, h.eq_mul]⟩
  rw [roundToPrecision]
  generalize surplusBits (n / 2 ^ u) = s at hk ⊢
  rw [hk, roundHalfEven_mul_self _ (Nat.two_pow_pos u), Nat.mul_assoc, Nat.mul_comm (2 ^ s) (2 ^ u),
    roundHalfEven_mul_self _ (Nat.mul_pos (Nat.two_pow_pos u) (Nat.two_pow_pos s))]

theorem KeepsPrecision.of_mul_two_pow {n u : Nat} (h : KeepsPrecision (n * 2 ^ u)) :
    KeepsPrecision n := by
  have hround := roundToPrecision_two_pow h u
  rw [roundHalfEven_mul_self n (Nat.two_pow_pos u)] at hround
  exact hround ▸ keepsPrecision_roundToPrecision _ _

/-! ## Remainders recorded in the lowest bit -/

theorem or_one_eq (q : Nat) : q ||| 1 = q / 2 * 2 + 1 := by
  have hdiv : (q ||| 1) / 2 = q / 2 := by
    rw [Nat.or_div_two]
    exact Nat.or_zero _
  have hmod : (q ||| 1) % 2 = 1 := by
    rw [Nat.or_mod_two_eq_one]
    exact .inr rfl
  omega

/-- With two bits below the last one kept, a remainder recorded in the lowest bit leaves the quotient
on its side of the middle. -/
theorem roundHalfEven_sticky {n d : Nat} (hd : 0 < d) (hn : n % d ≠ 0) (u : Nat) :
    roundHalfEven (n / d ||| 1) (2 ^ (u + 2)) = roundHalfEven n (d * 2 ^ (u + 2)) := by
  have hrest : n % d < d := Nat.mod_lt n hd
  have hstep : 2 ^ (u + 2) = 2 * (2 * 2 ^ u) := by rw [Nat.pow_add]; omega
  have hmod : n % (d * 2 ^ (u + 2)) = n % d + d * (n / d % 2 ^ (u + 2)) := Nat.mod_mul
  rw [roundHalfEven, roundHalfEven, hmod, ← Nat.div_div_eq_div_mul, or_one_eq]
  generalize n / d = q
  -- Setting the lowest bit changes neither half of the quotient nor half of its remainder.
  have hhalf : (q / 2 * 2 + 1) / 2 = q / 2 := by omega
  have hquotient : (q / 2 * 2 + 1) / 2 ^ (u + 2) = q / 2 ^ (u + 2) := by
    rw [hstep, ← Nat.div_div_eq_div_mul, hhalf, Nat.div_div_eq_div_mul]
  have hlow : (q / 2 * 2 + 1) % 2 ^ (u + 2) = q % 2 ^ (u + 2) / 2 * 2 + 1 := by
    have hodd := Nat.mod_mul (a := 2) (b := 2 * 2 ^ u) (x := q / 2 * 2 + 1)
    have hrem := Nat.mod_mul (a := 2) (b := 2 * 2 ^ u) (x := q)
    rw [hhalf] at hodd
    rw [hstep]
    omega
  rw [hquotient, hlow, hstep]
  generalize q % (2 * (2 * 2 ^ u)) = r
  generalize 2 ^ u = h
  have hmiddle : d * (2 * (2 * h)) = 2 * (d * (2 * h)) := Nat.mul_left_comm d 2 _
  rcases Nat.lt_or_ge r (2 * h) with hlt | hge
  · have hle := Nat.mul_le_mul_left d (Nat.succ_le_of_lt hlt)
    rw [Nat.mul_succ] at hle
    rw [if_pos (.inl (by omega)), if_pos (.inl (by omega))]
  · have hle := Nat.mul_le_mul_left d hge
    rw [if_neg (by omega), if_neg (by omega)]

/-- A quotient with its remainder recorded is rounded as the ratio itself. -/
theorem roundToPrecision_sticky {n d : Nat} (hd : 0 < d) (h : 2 ^ 54 ≤ n / d) :
    roundToPrecision (if n % d = 0 then n / d else n / d ||| 1) 1 = roundToPrecision n d := by
  split
  · next hexact =>
    rw [← roundToPrecision_mul_right hd, Nat.one_mul,
      Nat.div_mul_cancel (Nat.dvd_of_mod_eq_zero hexact)]
  · next hrest =>
    have hor := or_one_eq (n / d)
    have hsurplus : surplusBits (n / d) = surplusBits (n / d / 4) + 2 :=
      surplusBits_append (by omega) (by omega) (by omega)
    have hsurplus' : surplusBits (n / d ||| 1) = surplusBits (n / d / 4) + 2 :=
      surplusBits_append (by omega) (by omega) (by omega)
    rw [roundToPrecision, roundToPrecision, Nat.div_one, hsurplus, hsurplus', Nat.one_mul,
      roundHalfEven_sticky hd hrest]

/-! ## Ratios as binary64 numbers -/

/-- From the end of the range on, rounding leads out of the range. -/
theorem rangeEnd_le_roundToPrecision {a b : Nat} (hb : 0 < b) (h : rangeEnd * b ≤ a) :
    rangeEnd ≤ roundToPrecision a b := by
  have hq : 2 ^ rangeBits ≤ a / b := (Nat.le_div_iff_mul_le hb).2 h
  have hq0 : a / b ≠ 0 := by have := Nat.two_pow_pos rangeBits; omega
  have hl : rangeBits ≤ (a / b).log2 := (Nat.le_log2 hq0).2 hq
  have hs : 52 + surplusBits (a / b) = (a / b).log2 := by
    unfold surplusBits
    unfold rangeBits at hl
    omega
  have hsteps : 2 ^ 52 ≤ a / (b * 2 ^ surplusBits (a / b)) := by
    rw [← Nat.div_div_eq_div_mul, Nat.le_div_iff_mul_le (Nat.two_pow_pos _), ← Nat.pow_add, hs]
    exact (Nat.le_log2 hq0).1 (Nat.le_refl _)
  calc rangeEnd ≤ 2 ^ (a / b).log2 := Nat.pow_le_pow_right (by decide) hl
    _ = 2 ^ 52 * 2 ^ surplusBits (a / b) := by rw [← Nat.pow_add, hs]
    _ ≤ roundToPrecision a b :=
      Nat.mul_le_mul_right _ (Nat.le_trans hsteps (le_roundHalfEven _ _))

/-- What is nearer to zero than to one rounds to zero. -/
theorem roundToPrecision_eq_zero {a b : Nat} (h : 2 * a < b) : roundToPrecision a b = 0 := by
  have h0 : a / b = 0 := Nat.div_eq_of_lt (by omega)
  have hs : surplusBits 0 = 0 := by decide
  rw [roundToPrecision, h0, hs,
    roundHalfEven_eq (k := 0) (by omega) (by omega) (by omega) (by omega)]

namespace Double

/-- A number is its sign with its absolute value. -/
theorem signed_natAbs (n : Int) : signed (n < 0) n.natAbs = n := by
  rw [signed]
  split
  · next h =>
    rw [decide_eq_true_eq] at h
    omega
  · next h =>
    rw [decide_eq_true_eq] at h
    omega

variable {negative : Bool} {a b : Nat}

theorem ofRatio_eq_finite {m : Magnitude} (h : roundToPrecision a b = m.units) :
    ofRatio negative a b = .finite negative m := by
  obtain ⟨units, hk, hlt⟩ := m
  subst h
  exact dif_pos hlt

theorem ofRatio_eq_infinite (hb : 0 < b) (h : rangeEnd * b ≤ a) :
    ofRatio negative a b = .infinite negative :=
  dif_neg (Nat.not_lt.2 (rangeEnd_le_roundToPrecision hb h))

theorem ofRatio_eq_zero (h : 2 * a < b) : ofRatio negative a b = zero negative :=
  ofRatio_eq_finite (roundToPrecision_eq_zero h)

theorem ofRatio_mul_right {c : Nat} (hc : 0 < c) :
    ofRatio negative (a * c) (b * c) = ofRatio negative a b := by
  unfold ofRatio
  simp only [roundToPrecision_mul_right hc]

/-- Equal ratios are rounded alike. -/
theorem ofRatio_eq_of_mul_eq {a' b' : Nat} (hb : 0 < b) (hb' : 0 < b') (h : a * b' = a' * b) :
    ofRatio negative a b = ofRatio negative a' b' := by
  rw [← ofRatio_mul_right hb', h, Nat.mul_comm b, ofRatio_mul_right hb]

end Double

end Calculator
