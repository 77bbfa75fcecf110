/-
# Hmpc.Lib.Butterfly -- kernels with a work item for every butterfly

A stage of a transform on `m` arrays of `n` elements has a work item for each of the `n / 2`
butterflies of each array. `parallelFor_butterflies` gives the buffer after such a kernel, for any
order of the work items and any layout of the arrays.
-/
import Hmpc.Lib.Interleaving
import Hmpc.Lib.Ntt

namespace Hmpc.Lib.Butterfly

open Hmpc.Lib.Ntt

/-- The first place of a butterfly; `s` is how far apart its places are. -/
def target (s t : ℕ) : ℕ := t / s * s * 2 + t % s

/-- The butterfly that a place belongs to. -/
def butterfly (s p : ℕ) : ℕ := p / (2 * s) * s + p % s

section

variable {s p t : ℕ}

theorem target_div (hs : 0 < s) (t : ℕ) :
    target s t / (2 * s) = t / s ∧ target s t % (2 * s) = t % s := by
  have hlt : t % s < s := Nat.mod_lt t hs
  have htarget : target s t = t % s + 2 * s * (t / s) := by
    unfold target
    ring
  rw [htarget, Nat.add_mul_div_left _ _ (by omega), Nat.add_mul_mod_self_left,
    Nat.div_eq_of_lt (show t % s < 2 * s by omega), Nat.mod_eq_of_lt (by omega), Nat.zero_add]
  exact ⟨rfl, rfl⟩

theorem target_injective (hs : 0 < s) {t t' : ℕ} (h : target s t = target s t') : t = t' := by
  have hdiv : t / s = t' / s := by rw [← (target_div hs t).1, h, (target_div hs t').1]
  have hmod : t % s = t' % s := by rw [← (target_div hs t).2, h, (target_div hs t').2]
  rw [← Nat.div_add_mod t s, hdiv, hmod, Nat.div_add_mod]

/-- The first places of butterflies are not the second ones of others. -/
theorem target_ne (hs : 0 < s) (t t' : ℕ) : target s t ≠ target s t' + s := by
  have hlow : target s t' % (2 * s) < s := by
    rw [(target_div hs t').2]
    exact Nat.mod_lt _ hs
  have hhigh := (low_half hlow).2.1
  have hlow' : target s t % (2 * s) < s := by
    rw [(target_div hs t).2]
    exact Nat.mod_lt _ hs
  intro h
  rw [← h] at hhigh
  omega

theorem butterfly_div (hs : 0 < s) (p : ℕ) :
    butterfly s p / s = p / (2 * s) ∧ butterfly s p % s = p % s := by
  have hlt : p % s < s := Nat.mod_lt p hs
  unfold butterfly
  rw [Nat.add_comm, Nat.add_mul_div_right _ _ hs, Nat.add_mul_mod_self_right,
    Nat.div_eq_of_lt hlt, Nat.mod_eq_of_lt hlt, Nat.zero_add]
  exact ⟨rfl, rfl⟩

theorem target_butterfly (hs : 0 < s) (p : ℕ) :
    target s (butterfly s p) = 2 * s * (p / (2 * s)) + p % s := by
  unfold target
  rw [(butterfly_div hs p).1, (butterfly_div hs p).2]
  ring

theorem target_butterfly_low (h : p % (2 * s) < s) : target s (butterfly s p) = p := by
  have hs : 0 < s := by omega
  rw [target_butterfly hs, (low_half h).2.2.2, Nat.div_add_mod]

theorem target_butterfly_high (hs : 0 < s) (h : ¬ p % (2 * s) < s) :
    target s (butterfly s p) + s = p := by
  have hparts := Nat.div_add_mod p (2 * s)
  rw [target_butterfly hs, (high_half hs h).2.2.2.2]
  omega

/-- There are half as many butterflies as places. -/
theorem target_lt {n c : ℕ} (hs : 0 < s) (hn : n = 2 * s * c) (ht : t < n / 2) :
    target s t + s < n := by
  have hhalf : n / 2 = c * s := by
    rw [hn, Nat.mul_assoc, Nat.mul_div_cancel_left _ two_pos, Nat.mul_comm]
  rw [hhalf] at ht
  have hq : t / s < c := (Nat.div_lt_iff_lt_mul hs).mpr ht
  have hr : t % s < s := Nat.mod_lt t hs
  have hle : (t / s + 1) * (2 * s) ≤ c * (2 * s) := Nat.mul_le_mul_right _ hq
  have htarget : target s t = t / s * (2 * s) + t % s := by
    unfold target
    ring
  have hsum : (t / s + 1) * (2 * s) = t / s * (2 * s) + 2 * s := by ring
  rw [hn, Nat.mul_comm (2 * s)]
  omega

theorem butterfly_lt {n c : ℕ} (hs : 0 < s) (hn : n = 2 * s * c) (hp : p < n) :
    butterfly s p < n / 2 := by
  have hhalf : n / 2 = c * s := by
    rw [hn, Nat.mul_assoc, Nat.mul_div_cancel_left _ two_pos, Nat.mul_comm]
  have hq : p / (2 * s) < c := by
    rw [Nat.div_lt_iff_lt_mul (by omega), Nat.mul_comm, ← hn]
    exact hp
  have hle : (p / (2 * s) + 1) * s ≤ c * s := Nat.mul_le_mul_right _ hq
  have hr : p % s < s := Nat.mod_lt p hs
  rw [Nat.succ_mul] at hle
  rw [hhalf, butterfly]
  omega

end

/-! ## Work items and layouts -/

/-- The work items are the pairs of one of `h` butterflies and one of `m` arrays. -/
structure Splits (h m : ℕ) (tid array : ℕ → ℕ) : Prop where
  lt : ∀ id < h * m, tid id < h ∧ array id < m
  injective : ∀ id < h * m, ∀ id' < h * m, tid id = tid id' → array id = array id' → id = id'
  surjective : ∀ t < h, ∀ i < m, ∃ id < h * m, tid id = t ∧ array id = i

/-- Different elements of different arrays lie in different places. -/
def Layout (n m : ℕ) (place : ℕ → ℕ → ℕ) : Prop :=
  ∀ p < n, ∀ i < m, ∀ p' < n, ∀ i' < m, place p i = place p' i' → p = p' ∧ i = i'

theorem splits_div_mod (h m : ℕ) : Splits h m (fun id => id / m) (fun id => id % m) where
  lt id hid := by
    have hm : 0 < m := Nat.pos_of_mul_pos_left (Nat.zero_lt_of_lt hid)
    exact ⟨(Nat.div_lt_iff_lt_mul hm).mpr hid, Nat.mod_lt _ hm⟩
  injective id _ id' _ hdiv hmod := by
    show id = id'
    rw [← Nat.div_add_mod id m, hdiv, hmod, Nat.div_add_mod]
  surjective t ht i hi := by
    have hm : 0 < m := Nat.zero_lt_of_lt hi
    refine ⟨i + t * m, ?_, ?_, ?_⟩
    · calc i + t * m < m + t * m := by omega
        _ = (t + 1) * m := by ring
        _ ≤ h * m := Nat.mul_le_mul_right _ ht
    · show (i + t * m) / m = t
      rw [Nat.add_mul_div_right _ _ hm, Nat.div_eq_of_lt hi, Nat.zero_add]
    · show (i + t * m) % m = i
      rw [Nat.add_mul_mod_self_right, Nat.mod_eq_of_lt hi]

theorem splits_mod_div (h m : ℕ) : Splits h m (fun id => id % h) (fun id => id / h) where
  lt id hid := by
    have hid' : id < m * h := by rwa [Nat.mul_comm]
    exact ((splits_div_mod m h).lt id hid').symm
  injective id hid id' hid' hmod hdiv := by
    rw [Nat.mul_comm] at hid hid'
    exact (splits_div_mod m h).injective id hid id' hid' hdiv hmod
  surjective t ht i hi := by
    obtain ⟨id, hid, hdiv, hmod⟩ := (splits_div_mod m h).surjective i hi t ht
    exact ⟨id, by rwa [Nat.mul_comm], hmod, hdiv⟩

/-- Arrays that lie behind each other. -/
theorem layout_rows (n m : ℕ) : Layout n m (fun p i => p + i * n) := by
  intro p hp i _ p' hp' i' _ h
  have hn : 0 < n := Nat.zero_lt_of_lt hp
  have hmod : (p + i * n) % n = (p' + i' * n) % n := congrArg (· % n) h
  have hdiv : (p + i * n) / n = (p' + i' * n) / n := congrArg (· / n) h
  rw [Nat.add_mul_mod_self_right, Nat.add_mul_mod_self_right, Nat.mod_eq_of_lt hp,
    Nat.mod_eq_of_lt hp'] at hmod
  rw [Nat.add_mul_div_right _ _ hn, Nat.add_mul_div_right _ _ hn, Nat.div_eq_of_lt hp,
    Nat.div_eq_of_lt hp', Nat.zero_add, Nat.zero_add] at hdiv
  exact ⟨hmod, hdiv⟩

/-- Arrays whose elements alternate. -/
theorem layout_columns (n m : ℕ) : Layout n m (fun p i => i + p * m) := by
  intro p hp i hi p' hp' i' hi' h
  exact (layout_rows m n i hi p hp i' hi' p' hp' h).symm

/-- The places of all elements are those of a buffer. -/
structure Fills (n m : ℕ) (place : ℕ → ℕ → ℕ) : Prop where
  layout : Layout n m place
  inside : ∀ p < n, ∀ i < m, place p i < n * m
  onto : ∀ q < n * m, ∃ p < n, ∃ i < m, place p i = q

theorem fills_columns (n m : ℕ) : Fills n m (fun p i => i + p * m) where
  layout := layout_columns n m
  inside p hp i hi := by
    calc i + p * m < m + p * m := by omega
      _ = (p + 1) * m := by ring
      _ ≤ n * m := Nat.mul_le_mul_right _ hp
  onto q hq := by
    have hm : 0 < m := Nat.pos_of_mul_pos_left (Nat.zero_lt_of_lt hq)
    refine ⟨q / m, (Nat.div_lt_iff_lt_mul hm).mpr hq, q % m, Nat.mod_lt _ hm, ?_⟩
    rw [Nat.mul_comm]
    exact Nat.mod_add_div q m

theorem fills_rows (n m : ℕ) : Fills n m (fun p i => p + i * n) where
  layout := layout_rows n m
  inside p hp i hi := by
    rw [Nat.mul_comm n]
    exact (fills_columns m n).inside i hi p hp
  onto q hq := by
    rw [Nat.mul_comm] at hq
    obtain ⟨i, hi, p, hp, h⟩ := (fills_columns m n).onto q hq
    exact ⟨p, hp, i, hi, h⟩

/-- Each place of a buffer belongs to one of the two elements of one butterfly. -/
theorem pairing_butterflies {n m s c : ℕ} {tid array a b : ℕ → ℕ} {place : ℕ → ℕ → ℕ} (hs : 0 < s)
    (hn : n = 2 * s * c) (hwork : Splits (n / 2) m tid array) (hplace : Fills n m place)
    (ha : ∀ id < n / 2 * m, a id = place (target s (tid id)) (array id))
    (hb : ∀ id < n / 2 * m, b id = place (target s (tid id) + s) (array id)) :
    Pairing (n * m) (n / 2 * m) a b := by
  have hlt {id : ℕ} (hid : id < n / 2 * m) : target s (tid id) + s < n ∧ array id < m :=
    ⟨target_lt hs hn (hwork.lt id hid).1, (hwork.lt id hid).2⟩
  have hlow {id : ℕ} (hid : id < n / 2 * m) : target s (tid id) < n :=
    Nat.lt_of_add_right_lt (hlt hid).1
  apply pairing_of_injective
  · intro id hid
    rw [ha id hid, hb id hid]
    exact ⟨hplace.inside _ (hlow hid) _ (hlt hid).2, hplace.inside _ (hlt hid).1 _ (hlt hid).2⟩
  · intro id hid id' hid' h
    rw [ha id hid, ha id' hid'] at h
    obtain ⟨htarget, harray⟩ :=
      hplace.layout _ (hlow hid) _ (hlt hid).2 _ (hlow hid') _ (hlt hid').2 h
    exact hwork.injective id hid id' hid' (target_injective hs htarget) harray
  · intro id hid id' hid' h
    rw [hb id hid, hb id' hid'] at h
    obtain ⟨htarget, harray⟩ :=
      hplace.layout _ (hlt hid).1 _ (hlt hid).2 _ (hlt hid').1 _ (hlt hid').2 h
    exact hwork.injective id hid id' hid' (target_injective hs (Nat.add_right_cancel htarget))
      harray
  · intro id hid id' hid' h
    rw [ha id hid, hb id' hid'] at h
    exact target_ne hs _ _
      (hplace.layout _ (hlow hid) _ (hlt hid).2 _ (hlt hid').1 _ (hlt hid').2 h).1
  · intro q hq
    obtain ⟨p, hp, i, hi, rfl⟩ := hplace.onto q hq
    obtain ⟨id, hid, htid, harray⟩ := hwork.surjective _ (butterfly_lt hs hn hp) i hi
    refine ⟨id, hid, ?_⟩
    rw [ha id hid, hb id hid, htid, harray]
    -- a place is in the lower or in the upper half of its block
    by_cases hhalf : p % (2 * s) < s
    · exact .inl (by rw [target_butterfly_low hhalf])
    · exact .inr (by rw [target_butterfly_high hs hhalf])

/-! ## Kernels -/

section

variable {α : Type*} {n m s c : ℕ} {tid array : ℕ → ℕ} {place : ℕ → ℕ → ℕ} {order : List ℕ}
  {f g : ℕ → ℕ → α → α → α} {item : ℕ → (ℕ → α) → ℕ → α}

/-- Every place gets what its butterfly computes from the two elements before the kernel. -/
theorem parallelFor_butterflies (hs : 0 < s) (hn : n = 2 * s * c)
    (horder : order.Perm (List.range (n / 2 * m))) (hwork : Splits (n / 2) m tid array)
    (hplace : Layout n m place)
    (hitem : item = pair (fun id => place (target s (tid id)) (array id))
      (fun id => place (target s (tid id) + s) (array id))
      (fun id => f (tid id) (array id)) (fun id => g (tid id) (array id)))
    (buffer : ℕ → α) {p i : ℕ} (hp : p < n) (hi : i < m) :
    parallelFor order item buffer (place p i) =
      if p % (2 * s) < s then
        f (butterfly s p) i (buffer (place p i)) (buffer (place (p + s) i))
      else g (butterfly s p) i (buffer (place (p - s) i)) (buffer (place p i)) := by
  subst hitem
  have hmem {id : ℕ} : id ∈ order ↔ id < n / 2 * m := by
    rw [horder.mem_iff, List.mem_range]
  have hlt {id : ℕ} (hid : id ∈ order) : target s (tid id) + s < n ∧ array id < m :=
    ⟨target_lt hs hn (hwork.lt id (hmem.mp hid)).1, (hwork.lt id (hmem.mp hid)).2⟩
  -- no two items meet in a place, so the order does not matter
  have hpairs := parallelFor_pairs (f := fun id => f (tid id) (array id))
    (g := fun id => g (tid id) (array id)) (horder.nodup_iff.mpr List.nodup_range)
    (fun id hid id' hid' h => by
      obtain ⟨htarget, harray⟩ := hplace _ (Nat.lt_of_add_right_lt (hlt hid).1) _ (hlt hid).2
        _ (Nat.lt_of_add_right_lt (hlt hid').1) _ (hlt hid').2 h
      exact hwork.injective id (hmem.mp hid) id' (hmem.mp hid') (target_injective hs htarget)
        harray)
    (fun id hid id' hid' h => by
      obtain ⟨htarget, harray⟩ := hplace _ (hlt hid).1 _ (hlt hid).2 _ (hlt hid').1 _
        (hlt hid').2 h
      exact hwork.injective id (hmem.mp hid) id' (hmem.mp hid')
        (target_injective hs (Nat.add_right_cancel htarget)) harray)
    (fun id hid id' hid' h => target_ne hs _ _ (hplace _ (Nat.lt_of_add_right_lt (hlt hid).1) _
      (hlt hid).2 _ (hlt hid').1 _ (hlt hid').2 h).1) buffer
  obtain ⟨id, hid, htid, harray⟩ := hwork.surjective _ (butterfly_lt hs hn hp) i hi
  have hboth := hpairs id (hmem.mpr hid)
  simp only [htid, harray] at hboth
  by_cases hlow : p % (2 * s) < s
  · rw [if_pos hlow]
    rw [target_butterfly_low hlow] at hboth
    exact hboth.1
  · rw [if_neg hlow]
    have htarget := target_butterfly_high hs hlow
    have hfirst : target s (butterfly s p) = p - s := by omega
    rw [htarget, hfirst] at hboth
    exact hboth.2

end

section

variable {α : Type*} {n m s c : ℕ} {tid array : ℕ → ℕ} {place : ℕ → ℕ → ℕ} {order : List ℕ}
  {f g : ℕ → α → α → α} {item : ℕ → (ℕ → α) → ℕ → α}

/-- A stage in place: what a butterfly computes depends on its block. -/
theorem parallelFor_stage (hs : 0 < s) (hn : n = 2 * s * c)
    (horder : order.Perm (List.range (n / 2 * m))) (hwork : Splits (n / 2) m tid array)
    (hplace : Layout n m place)
    (hitem : item = pair (fun id => place (target s (tid id)) (array id))
      (fun id => place (target s (tid id) + s) (array id))
      (fun id => f (tid id / s)) (fun id => g (tid id / s)))
    (buffer : ℕ → α) {p i : ℕ} (hp : p < n) (hi : i < m) :
    parallelFor order item buffer (place p i) =
      if p % (2 * s) < s then f (p / (2 * s)) (buffer (place p i)) (buffer (place (p + s) i))
      else g (p / (2 * s)) (buffer (place (p - s) i)) (buffer (place p i)) := by
  rw [parallelFor_butterflies (f := fun t _ => f (t / s)) (g := fun t _ => g (t / s)) hs hn horder
    hwork hplace hitem buffer hp hi, (butterfly_div hs p).1]

/-- A stage that reads its elements from somewhere else. -/
theorem parallelFor_stage_from (hs : 0 < s) (hn : n = 2 * s * c)
    (horder : order.Perm (List.range (n / 2 * m))) (hwork : Splits (n / 2) m tid array)
    (hplace : Layout n m place) {r : ℕ → ℕ → α}
    (hitem : item = pair (fun id => place (target s (tid id)) (array id))
      (fun id => place (target s (tid id) + s) (array id))
      (fun id _ _ => f (tid id / s) (r (target s (tid id)) (array id))
        (r (target s (tid id) + s) (array id)))
      (fun id _ _ => g (tid id / s) (r (target s (tid id)) (array id))
        (r (target s (tid id) + s) (array id))))
    (buffer : ℕ → α) {p i : ℕ} (hp : p < n) (hi : i < m) :
    parallelFor order item buffer (place p i) =
      if p % (2 * s) < s then f (p / (2 * s)) (r p i) (r (p + s) i)
      else g (p / (2 * s)) (r (p - s) i) (r p i) := by
  rw [parallelFor_butterflies
    (f := fun t i _ _ => f (t / s) (r (target s t) i) (r (target s t + s) i))
    (g := fun t i _ _ => g (t / s) (r (target s t) i) (r (target s t + s) i))
    hs hn horder hwork hplace hitem buffer hp hi, (butterfly_div hs p).1]
  by_cases hlow : p % (2 * s) < s
  · rw [if_pos hlow, if_pos hlow, target_butterfly_low hlow]
  · have htarget := target_butterfly_high hs hlow
    rw [if_neg hlow, if_neg hlow, htarget, show target s (butterfly s p) = p - s by omega]

end

end Hmpc.Lib.Butterfly
