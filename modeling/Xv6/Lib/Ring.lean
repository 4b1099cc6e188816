import Mathlib

/-!
# A ring with free-running counters

A ring of `N` cells with two counters, one for the items put in and one for the
items taken out.  The counters run freely and wrap at `M`, a multiple of `N`.
`Holds` relates them to the sequence of all items that were ever put in and the
number of items that were taken out.
-/

namespace Ring

variable {α : Type}

/-- The ring `data` with the counters `r` and `w` when the items `sent` were put in
and the first `got` of them were taken out. -/
structure Holds (N M : Nat) (data : Nat → α) (r w : Nat) (sent : List α) (got : Nat) : Prop where
  le : got ≤ sent.length
  fits : sent.length ≤ got + N
  r_eq : r = got % M
  w_eq : w = sent.length % M
  cells : ∀ k, got ≤ k → k < sent.length → sent[k]? = some (data (k % N))

variable {N M : Nat} {data data' : Nat → α} {r w got : Nat} {sent : List α} {x : α}

theorem Holds.init (data : Nat → α) : Holds N M data 0 0 [] 0 where
  le := Nat.le_refl _
  fits := Nat.zero_le _
  r_eq := (Nat.zero_mod M).symm
  w_eq := (Nat.zero_mod M).symm
  cells := fun _ _ h => absurd h (Nat.not_lt_zero _)

/-- Numbers that are close are equal if they agree modulo `M`. -/
theorem eq_of_mod_eq {a b : Nat} (hle : a ≤ b) (hlt : b < a + M) (h : a % M = b % M) : a = b := by
  have h1 := Nat.div_add_mod a M
  have h2 := Nat.div_add_mod b M
  have h3 : M * (b / M) < M * (a / M) + M := by omega
  have h4 : M * (a / M) ≤ M * (b / M) := by omega
  have hpos : 0 < M := by omega
  have h5 : b / M < a / M + 1 := by
    refine Nat.lt_of_mul_lt_mul_left (a := M) ?_
    rwa [Nat.mul_add, Nat.mul_one]
  have h6 : a / M ≤ b / M := Nat.le_of_mul_le_mul_left h4 hpos
  have h7 : a / M = b / M := by omega
  rw [h7] at h1
  omega

section

variable (h : Holds N M data r w sent got)

include h

/-- The counters are equal if and only if the ring is empty. -/
theorem Holds.empty_iff (hNM : N < M) :
    r = w ↔ got = sent.length := by
  have hle := h.le
  have hfits := h.fits
  rw [h.r_eq, h.w_eq]
  exact ⟨fun he => eq_of_mod_eq hle (by omega) he, fun he => by rw [he]⟩

/-- The counters are `N` apart if and only if the ring is full. -/
theorem Holds.full_iff (hNM : N < M) :
    w = (r + N) % M ↔ sent.length = got + N := by
  have hle := h.le
  have hfits := h.fits
  rw [h.r_eq, h.w_eq, Nat.mod_add_mod]
  exact ⟨fun he => eq_of_mod_eq hfits (by omega) he, fun he => by rw [he]⟩

/-- The difference of the counters is the number of items in the ring. -/
theorem Holds.count (hNM : N < M) :
    (w + M - r) % M = sent.length - got := by
  have hle := h.le
  have hfits := h.fits
  have hpos : 0 < M := by omega
  have hr : got % M < M := Nat.mod_lt _ hpos
  have h1 := Nat.div_add_mod got M
  have h2 : (sent.length - got + got) % M = (sent.length - got + got % M) % M := by
    rw [Nat.add_mod_mod]
  rw [Nat.sub_add_cancel hle] at h2
  rw [h.r_eq, h.w_eq, h2]
  by_cases hc : sent.length - got + got % M < M
  · rw [Nat.mod_eq_of_lt hc]
    have he : sent.length - got + got % M + M - got % M = sent.length - got + M := by omega
    rw [he, Nat.add_mod_right, Nat.mod_eq_of_lt (by omega)]
  · have he : (sent.length - got + got % M) % M = sent.length - got + got % M - M := by
      rw [Nat.mod_eq_sub_mod (by omega), Nat.mod_eq_of_lt (by omega)]
    rw [he, Nat.mod_eq_of_lt (by omega)]
    omega

/-- The cells from the read counter on are the items not yet taken out. -/
theorem Holds.contents (hdvd : N ∣ M) :
    (List.range (sent.length - got)).map (fun j => data ((r + j) % N)) = sent.drop got := by
  apply List.ext_getElem?
  intro j
  rw [List.getElem?_drop]
  by_cases hj : j < sent.length - got
  · have hc := h.cells (got + j) (by omega) (by omega)
    have hm : (r + j) % N = (got + j) % N := by
      rw [h.r_eq, Nat.add_mod, Nat.mod_mod_of_dvd _ hdvd, ← Nat.add_mod]
    rw [hc, List.getElem?_map, List.getElem?_range hj, Option.map_some, hm]
  · rw [List.getElem?_eq_none (by simpa using hj), List.getElem?_eq_none (by omega)]

/-- The next cell may be written before the item counts. -/
theorem Holds.stage (hdvd : N ∣ M) (hroom : sent.length < got + N)
    (hdata : ∀ k < N, k ≠ w % N → data' k = data k) :
    Holds N M data' r w sent got := by
  have hle := h.le
  have hN : 0 < N := by omega
  have hw : w % N = sent.length % N := by rw [h.w_eq, Nat.mod_mod_of_dvd _ hdvd]
  refine ⟨h.le, h.fits, h.r_eq, h.w_eq, fun k h1 h2 => ?_⟩
  -- the items in the ring are less than `N` behind
  have hne : k % N ≠ w % N := by
    rw [hw]
    exact fun he => absurd (eq_of_mod_eq (by omega) (by omega) he) (by omega)
  rw [hdata _ (Nat.mod_lt _ hN) hne]
  exact h.cells k h1 h2

/-- The item in the next cell is put in. -/
theorem Holds.commit (hdvd : N ∣ M) (hroom : sent.length < got + N) (hx : data (w % N) = x) :
    Holds N M data r ((w + 1) % M) (sent ++ [x]) got := by
  have hle := h.le
  have hlen : (sent ++ [x]).length = sent.length + 1 := List.length_append
  refine ⟨by omega, by omega, h.r_eq, by rw [h.w_eq, hlen, Nat.mod_add_mod], fun k h1 h2 => ?_⟩
  rcases Nat.lt_or_ge k sent.length with hk | hk
  · rw [List.getElem?_append_left hk]
    exact h.cells k h1 hk
  · have he : k = sent.length := by omega
    have hw : w % N = k % N := by rw [h.w_eq, he, Nat.mod_mod_of_dvd _ hdvd]
    rw [List.getElem?_append_right hk, ← hw, hx, he, Nat.sub_self]
    rfl

/-- An item is put in. -/
theorem Holds.put (hdvd : N ∣ M) (hroom : sent.length < got + N) (hx : data' (w % N) = x)
    (hdata : ∀ k < N, k ≠ w % N → data' k = data k) :
    Holds N M data' r ((w + 1) % M) (sent ++ [x]) got :=
  (h.stage hdvd hroom hdata).commit hdvd hroom hx

end

/-- The items put in last are taken back. -/
theorem Holds.unput {back : List α} (h : Holds N M data r w (sent ++ back) got)
    (hle : got ≤ sent.length) : Holds N M data r (sent.length % M) sent got := by
  have hfits := h.fits
  rw [List.length_append] at hfits
  refine ⟨hle, by omega, h.r_eq, rfl, fun k h1 h2 => ?_⟩
  rw [← List.getElem?_append_left h2]
  exact h.cells k h1 (by rw [List.length_append]; omega)

/-- The ring without the items before `got'`. -/
theorem Holds.skip {got' : Nat} (h : Holds N M data r w sent got) (hle : got ≤ got')
    (hle' : got' ≤ sent.length) : Holds N M data (got' % M) w sent got' := by
  have hfits := h.fits
  exact ⟨hle', by omega, rfl, h.w_eq, fun k h1 h2 => h.cells k (by omega) h2⟩

/-- An item is taken out. -/
theorem Holds.get (h : Holds N M data r w sent got) (hdvd : N ∣ M) (hne : got < sent.length) :
    sent[got]? = some (data (r % N)) ∧ Holds N M data ((r + 1) % M) w sent (got + 1) := by
  have hfits := h.fits
  have hr : r % N = got % N := by rw [h.r_eq, Nat.mod_mod_of_dvd _ hdvd]
  refine ⟨?_, ⟨hne, by omega, ?_, h.w_eq, fun k h1 h2 => h.cells k (by omega) h2⟩⟩
  · rw [hr]
    exact h.cells got (Nat.le_refl _) hne
  · rw [h.r_eq, Nat.mod_add_mod]

end Ring
