import Mathlib

/-!
# Circular doubly linked lists

The links are two maps `next` and `prev` on the nodes.  `Segment next prev a l b`
says that from `a` the nodes `l` follow one another, and then `b`.  A circle is a
segment from its head back to the head.  Unlinking a node and linking one in after
the head change the links in two places each.
-/

namespace Circular

variable {α : Type}

/-- From `a` the links lead through `l` to `b`, and back. -/
inductive Segment (next prev : α → α) : α → List α → α → Prop
  | nil {a b : α} : next a = b → prev b = a → Segment next prev a [] b
  | cons {a x b : α} {l : List α} : next a = x → prev x = a → Segment next prev x l b →
      Segment next prev a (x :: l) b

variable {next prev next' prev' : α → α} {a b x h : α} {l r : List α}

/-- Only the links inside a segment matter. -/
theorem Segment.congr (hs : Segment next prev a l b) (hn : ∀ y ∈ a :: l, next' y = next y)
    (hp : ∀ y ∈ l ++ [b], prev' y = prev y) : Segment next' prev' a l b := by
  induction hs with
  | nil h1 h2 => exact .nil (by rw [hn _ (by simp), h1]) (by rw [hp _ (by simp), h2])
  | cons h1 h2 _ ih =>
      refine .cons (by rw [hn _ (by simp), h1]) (by rw [hp _ (by simp), h2]) (ih ?_ ?_)
      · exact fun y hy => hn y (List.mem_cons_of_mem _ hy)
      · exact fun y hy => hp y (List.mem_cons_of_mem _ hy)

/-- A segment is cut at a node in it. -/
theorem segment_append :
    Segment next prev a (l ++ x :: r) b ↔ Segment next prev a l x ∧ Segment next prev x r b := by
  induction l generalizing a with
  | nil =>
      constructor
      · rintro (_ | ⟨h1, h2, h3⟩)
        exact ⟨.nil h1 h2, h3⟩
      · rintro ⟨_ | _, h3⟩
        exact .cons ‹_› ‹_› h3
  | cons y l ih =>
      constructor
      · rintro (_ | ⟨h1, h2, h3⟩)
        exact ⟨.cons h1 h2 (ih.1 h3).1, (ih.1 h3).2⟩
      · rintro ⟨_ | ⟨h1, h2, h3⟩, h4⟩
        exact .cons h1 h2 (ih.2 ⟨h3, h4⟩)

/-- Read backwards. -/
theorem Segment.reverse (hs : Segment next prev a l b) : Segment prev next b l.reverse a := by
  induction hs with
  | nil h1 h2 => exact .nil h2 h1
  | cons h1 h2 _ ih =>
      rw [List.reverse_cons]
      exact segment_append.2 ⟨ih, .nil h2 h1⟩

theorem Segment.next_mem (hs : Segment next prev a l b) : next a ∈ l ++ [b] := by
  cases hs with
  | nil h1 _ => simp [h1]
  | cons h1 _ _ => simp [h1]

theorem Segment.prev_mem (hs : Segment next prev a l b) : prev b ∈ a :: l := by
  have h := hs.reverse.next_mem
  simpa [or_comm] using h

/-! ## Loops over the links -/

section Scan

variable [DecidableEq α]

/-- Follow `next` from a node up to `stop`, looking for a node with `p`; at most `k`
nodes are looked at.  `none`: the loop has not ended by then. -/
def scan (next : α → α) (stop : α) (p : α → Bool) : Nat → α → Option (Option α)
  | 0, _ => none
  | k + 1, b => if b = stop then some none else if p b then some (some b)
      else scan next stop p k (next b)

/-- The loop ends, with the first node of the segment that has `p`. -/
theorem Segment.scan_eq {p : α → Bool} {k : Nat} (hs : Segment next prev a l b) (hb : b ∉ l)
    (hk : l.length < k) : scan next b p k (next a) = some (l.find? p) := by
  induction hs generalizing k with
  | nil h1 _ =>
      obtain ⟨k, rfl⟩ : ∃ j, k = j + 1 := ⟨k - 1, by omega⟩
      simp [scan, h1]
  | @cons a x b l h1 _ _ ih =>
      rw [List.length_cons] at hk
      obtain ⟨k, rfl⟩ : ∃ j, k = j + 1 := ⟨k - 1, by omega⟩
      rw [List.mem_cons, not_or] at hb
      rw [h1, scan, if_neg (Ne.symm hb.1)]
      cases hp : p x with
      | true => simp [hp]
      | false => simpa [hp] using ih hb.2 (by omega)

end Scan

/-! ## Circles -/

/-- The nodes `l` in a circle with the head `h`. -/
structure Circle (next prev : α → α) (h : α) (l : List α) : Prop where
  segment : Segment next prev h l h
  nodup : (h :: l).Nodup

theorem Circle.notMem (hc : Circle next prev h l) : h ∉ l := (List.nodup_cons.1 hc.nodup).1

/-- A node of a circle is not its own neighbour. -/
theorem Circle.next_ne (hc : Circle next prev h (l ++ x :: r)) : next x ≠ x := by
  intro he
  have hm := (segment_append.1 hc.segment).2.next_mem
  rw [he] at hm
  rcases List.mem_append.1 hm with hm | hm
  · have hn := (List.nodup_cons.1 (List.nodup_append.1 (List.nodup_cons.1 hc.nodup).2).2.1).1
    exact hn hm
  · exact hc.notMem (by simp [List.mem_singleton.1 hm])

variable [DecidableEq α]

/-- A node of a segment is unlinked. -/
theorem Segment.unlink (hs : Segment next prev a (l ++ x :: r) b) (hn : (a :: (l ++ x :: r)).Nodup)
    (hb : b ∉ l ++ x :: r) :
    Segment (Function.update next (prev x) (next x)) (Function.update prev (next x) (prev x))
      a (l ++ r) b := by
  induction l generalizing a with
  | nil =>
      obtain ⟨ha, hxr, hr⟩ : a ∉ x :: r ∧ x ∉ r ∧ r.Nodup := by
        simpa only [List.nil_append, List.nodup_cons] using hn
      rcases hs with _ | ⟨h1, h2, h3⟩
      rw [h2]
      cases h3 with
      | nil h4 _ => exact .nil (by simp [h4]) (by simp [h4])
      | @cons _ z _ r h4 h5 h6 =>
          rw [List.nodup_cons] at hr
          refine .cons (by simp [h4]) (by simp [h4]) (h6.congr (fun y hy => ?_) fun y hy => ?_)
          · refine Function.update_of_ne ?_ _ _
            rintro rfl
            exact ha (List.mem_cons_of_mem _ hy)
          · refine Function.update_of_ne ?_ _ _
            rw [h4]
            rintro rfl
            rcases List.mem_append.1 hy with hy | hy
            · exact hr.1 hy
            · rw [List.mem_singleton] at hy
              simp [hy] at hb
  | cons y l ih =>
      rw [List.cons_append, List.nodup_cons] at hn
      rw [List.cons_append, List.mem_cons, not_or] at hb
      rcases hs with _ | ⟨h1, h2, h3⟩
      have hcut := segment_append.1 h3
      -- neither end of the cut is before `y`
      have hprev : a ≠ prev x := by
        rintro rfl
        have hm := hcut.1.prev_mem
        exact hn.1 (by simp only [List.mem_cons, List.mem_append] at hm ⊢; tauto)
      have hnext : y ≠ next x := by
        rintro rfl
        rcases List.mem_append.1 hcut.2.next_mem with hm | hm
        · have hy := (List.nodup_cons.1 hn.2).1
          exact hy (by simp [hm])
        · exact hb.1 (List.mem_singleton.1 hm).symm
      refine .cons ?_ ?_ (ih h3 hn.2 hb.2)
      · rw [Function.update_of_ne hprev, h1]
      · rw [Function.update_of_ne hnext, h2]

/-- A node of a circle is unlinked. -/
theorem Circle.unlink (hc : Circle next prev h (l ++ x :: r)) :
    Circle (Function.update next (prev x) (next x)) (Function.update prev (next x) (prev x)) h
      (l ++ r) := by
  refine ⟨hc.segment.unlink hc.nodup hc.notMem, hc.nodup.sublist ?_⟩
  exact List.Sublist.cons_cons _ (List.Sublist.append_left (List.sublist_cons_self _ _) _)

/-- A node is linked in after the head. -/
theorem Circle.link (hc : Circle next prev h l) (hx : x ∉ h :: l) :
    Circle (Function.update (Function.update next x (next h)) h x)
      (Function.update (Function.update prev x h) (next h) x) h (x :: l) := by
  rw [List.mem_cons, not_or] at hx
  refine ⟨?_, ?_⟩
  · cases hc with
    | mk hs hn =>
        cases hs with
        | nil h1 h2 =>
            refine .cons (by simp) ?_ (.nil ?_ ?_)
            · simp [h1, hx.1]
            · simp [h1, hx.1]
            · simp [h1]
        | @cons _ y _ l h1 h2 h3 =>
            rw [List.nodup_cons, List.nodup_cons] at hn
            rw [List.mem_cons, not_or] at hx
            refine .cons (by simp) ?_ (.cons ?_ ?_ (h3.congr (fun z hz => ?_) fun z hz => ?_))
            · rw [h1, Function.update_of_ne hx.2.1, Function.update_self]
            · rw [Function.update_of_ne hx.1, Function.update_self, h1]
            · rw [h1, Function.update_self]
            · have hzh : z ≠ h := by
                rintro rfl
                exact hn.1 hz
              have hzx : z ≠ x := by
                rintro rfl
                rcases List.mem_cons.1 hz with hz | hz
                · exact hx.2.1 hz
                · exact hx.2.2 hz
              rw [Function.update_of_ne hzh, Function.update_of_ne hzx]
            · have hzy : z ≠ y := by
                rintro rfl
                rcases List.mem_append.1 hz with hz | hz
                · exact hn.2.1 hz
                · exact hn.1 (by simp [List.mem_singleton.1 hz])
              have hzx : z ≠ x := by
                rintro rfl
                rcases List.mem_append.1 hz with hz | hz
                · exact hx.2.2 hz
                · exact hx.1 (List.mem_singleton.1 hz)
              rw [h1, Function.update_of_ne hzy, Function.update_of_ne hzx]
  · have hn := List.nodup_cons.1 hc.nodup
    rw [List.nodup_cons, List.nodup_cons, List.mem_cons, not_or]
    exact ⟨⟨Ne.symm hx.1, hn.1⟩, hx.2, hn.2⟩

end Circular
