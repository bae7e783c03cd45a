import Mathlib.Data.List.Nodup
import Mathlib.Logic.Function.Basic
/-!
# Circular doubly linked lists

Entries are addresses, and the memory gives each a `next` and a `prev`. `Chain` is a stretch of such a list,
`Ring` the whole of it from its head back to its head. Inserting behind the head and removing an entry are
the four assignments they are, in that order; `Ring.insert`, `Ring.remove` say what becomes of a ring,
`Alone.insert`, `Alone.remove` what becomes of an entry that is on none.
-/

/-- The links of all entries. -/
structure Links (α : Type*) where
  next : α → α
  prev : α → α

namespace Links
variable {α : Type*}

/-- From `a` through `xs` to `b`, and back. -/
def Chain (l : Links α) : α → List α → α → Prop
  | a, [], b => l.next a = b ∧ l.prev b = a
  | a, x :: xs, b => l.next a = x ∧ l.prev x = a ∧ Chain l x xs b

/-- The list with head `h` and the entries `xs`. -/
structure Ring (l : Links α) (h : α) (xs : List α) : Prop where
  chain : l.Chain h xs h
  nodup : (h :: xs).Nodup

/-- An entry that points to itself. -/
def Alone (l : Links α) (e : α) : Prop := l.next e = e ∧ l.prev e = e

section
variable {l l' : Links α} {a b : α} {xs ys : List α}

theorem chain_append (y : α) : l.Chain a (xs ++ y :: ys) b ↔ l.Chain a xs y ∧ l.Chain y ys b := by
  induction xs generalizing a with
  | nil => simp only [List.nil_append, Chain, and_assoc]
  | cons x xs ih => simp only [List.cons_append, Chain, ih, and_assoc]

theorem Chain.congr (h : l.Chain a xs b) (hn : ∀ x ∈ a :: xs, l'.next x = l.next x)
    (hp : ∀ x ∈ xs ++ [b], l'.prev x = l.prev x) : l'.Chain a xs b := by
  induction xs generalizing a with
  | nil => exact ⟨(hn a (List.mem_singleton_self a)).trans h.1, (hp b (List.mem_singleton_self b)).trans h.2⟩
  | cons x xs ih =>
    obtain ⟨hnext, hprev, hrest⟩ := h
    refine ⟨(hn a List.mem_cons_self).trans hnext, (hp x List.mem_cons_self).trans hprev, ?_⟩
    exact ih hrest (fun y hy => hn y (List.mem_cons_of_mem a hy)) fun y hy => hp y (List.mem_cons_of_mem x hy)

theorem Chain.next_mem (h : l.Chain a xs b) : l.next a ∈ xs ++ [b] := by
  cases xs with
  | nil => exact List.mem_singleton.2 h.1
  | cons x xs => exact h.1 ▸ List.mem_cons_self

theorem Chain.prev_mem (h : l.Chain a xs b) : l.prev b ∈ a :: xs := by
  induction xs generalizing a with
  | nil => exact List.mem_singleton.2 h.2
  | cons x xs ih => exact List.mem_cons_of_mem a (ih h.2.2)

end

section
variable [DecidableEq α]

/-- `entry` becomes the first of the list with head `h`. -/
def insert (l : Links α) (h entry : α) : Links α :=
  let l := { l with prev := Function.update l.prev entry h }
  let l := { l with next := Function.update l.next entry (l.next h) }
  let l := { l with prev := Function.update l.prev (l.next h) entry }
  { l with next := Function.update l.next h entry }

def remove (l : Links α) (entry : α) : Links α :=
  let l := { l with prev := Function.update l.prev (l.next entry) (l.prev entry) }
  let l := { l with next := Function.update l.next (l.prev entry) (l.next entry) }
  let l := { l with prev := Function.update l.prev entry entry }
  { l with next := Function.update l.next entry entry }

variable {l : Links α} {h e a b : α} {xs ys : List α}

theorem insert_next :
    (l.insert h e).next = Function.update (Function.update l.next e (l.next h)) h e := rfl

theorem insert_prev (he : e ≠ h) :
    (l.insert h e).prev = Function.update (Function.update l.prev e h) (l.next h) e := by
  simp only [insert, Function.update_of_ne he.symm]

theorem remove_next : (l.remove e).next = Function.update (Function.update l.next (l.prev e) (l.next e)) e e := by
  simp only [remove, Function.update_apply, ite_self]

theorem remove_prev : (l.remove e).prev = Function.update (Function.update l.prev (l.next e) (l.prev e)) e e := rfl

theorem Ring.insert (hr : l.Ring h xs) (he : e ∉ h :: xs) : (l.insert h e).Ring h (e :: xs) := by
  obtain ⟨hc, hnodup⟩ := hr
  obtain ⟨(heh : e ≠ h), hexs⟩ := not_or.1 (mt List.mem_cons.2 he)
  obtain ⟨hhx, hxs⟩ := List.nodup_cons.1 hnodup
  have hne : e ≠ l.next h := by
    intro hn
    have hmem := hc.next_mem
    rw [← hn, List.mem_append, List.mem_singleton] at hmem
    exact hmem.elim hexs heh
  refine ⟨⟨?_, ?_, ?_⟩, ?_⟩
  · rw [insert_next, Function.update_self]
  · rw [insert_prev heh, Function.update_of_ne hne, Function.update_self]
  · cases xs with
    | nil =>
      refine ⟨?_, ?_⟩
      · rw [insert_next, Function.update_of_ne heh, Function.update_self]
        exact hc.1
      · rw [insert_prev heh, hc.1, Function.update_self]
    | cons x xs =>
      obtain ⟨hx, -, hrest⟩ := hc
      refine ⟨?_, ?_, hrest.congr ?_ ?_⟩
      · rw [insert_next, Function.update_of_ne heh, Function.update_self, hx]
      · rw [insert_prev heh, hx, Function.update_self]
      · intro y hy
        rw [insert_next, Function.update_of_ne (ne_of_mem_of_not_mem hy hhx),
          Function.update_of_ne (ne_of_mem_of_not_mem hy hexs)]
      · intro y hy
        have hyx : y ≠ x := by
          rcases List.mem_append.1 hy with hy | hy
          · exact ne_of_mem_of_not_mem hy (List.nodup_cons.1 hxs).1
          · exact List.mem_singleton.1 hy ▸ (ne_of_mem_of_not_mem List.mem_cons_self hhx).symm
        have hye : y ≠ e := by
          rcases List.mem_append.1 hy with hy | hy
          · exact ne_of_mem_of_not_mem (List.mem_cons_of_mem x hy) hexs
          · exact List.mem_singleton.1 hy ▸ heh.symm
        rw [insert_prev heh, hx, Function.update_of_ne hyx, Function.update_of_ne hye]
  · refine List.nodup_cons.2 ⟨?_, List.nodup_cons.2 ⟨hexs, hxs⟩⟩
    exact mt List.mem_cons.1 (not_or.2 ⟨heh.symm, hhx⟩)

/-- An entry is left out from between two stretches. -/
theorem Chain.remove (hl : l.Chain a xs e) (hr : l.Chain e ys b) (hxs : (e :: a :: xs).Nodup)
    (hys : (e :: (ys ++ [b])).Nodup) (hd : ∀ x ∈ a :: xs, x ∉ ys) (hb : b ∉ xs) :
    (l.remove e).Chain a (xs ++ ys) b := by
  obtain ⟨hey, hys⟩ := List.nodup_cons.1 hys
  have hn := hr.next_mem
  induction xs generalizing a with
  | nil =>
    obtain ⟨hea, -⟩ := List.nodup_cons.1 hxs
    have hae : a ≠ e := fun h => hea (List.mem_singleton.2 h.symm)
    have hnext : (l.remove e).next a = l.next e := by
      rw [remove_next, Function.update_of_ne hae, hl.2, Function.update_self]
    have hprev : (l.remove e).prev (l.next e) = a := by
      rw [remove_prev, Function.update_of_ne (ne_of_mem_of_not_mem hn hey), Function.update_self]
      exact hl.2
    cases ys with
    | nil => exact ⟨hnext.trans hr.1, hr.1 ▸ hprev⟩
    | cons y ys =>
      obtain ⟨hy, -, hrest⟩ := hr
      refine ⟨hnext.trans hy, hy ▸ hprev, hrest.congr ?_ ?_⟩
      · intro z hz
        have hza : z ≠ a := ne_of_mem_of_not_mem hz (hd a (List.mem_singleton_self a))
        have hze : z ≠ e := ne_of_mem_of_not_mem (List.mem_append_left _ hz) hey
        rw [remove_next, Function.update_of_ne hze, hl.2, Function.update_of_ne hza]
      · intro z hz
        have hzy : z ≠ y := ne_of_mem_of_not_mem hz (List.nodup_cons.1 hys).1
        have hze : z ≠ e := ne_of_mem_of_not_mem (List.mem_cons_of_mem y hz) hey
        rw [remove_prev, Function.update_of_ne hze, hy, Function.update_of_ne hzy]
  | cons x xs ih =>
    obtain ⟨hnext, hprev, hrest⟩ := hl
    obtain ⟨hea, hax⟩ := List.nodup_cons.1 hxs
    have hae : a ≠ e := (ne_of_mem_of_not_mem List.mem_cons_self hea)
    have hxe : x ≠ e := ne_of_mem_of_not_mem (List.mem_cons_of_mem a List.mem_cons_self) hea
    have hlast : a ≠ l.prev e := (ne_of_mem_of_not_mem hrest.prev_mem (List.nodup_cons.1 hax).1).symm
    have hxn : x ≠ l.next e := by
      intro h
      rcases List.mem_append.1 (h ▸ hn) with hx | hx
      · exact hd x (List.mem_cons_of_mem a List.mem_cons_self) hx
      · exact hb (List.mem_singleton.1 hx ▸ List.mem_cons_self)
    refine ⟨?_, ?_, ih hrest ?_ (fun y hy => hd y (List.mem_cons_of_mem a hy)) fun h => hb (List.mem_cons_of_mem x h)⟩
    · rw [remove_next, Function.update_of_ne hae, Function.update_of_ne hlast, hnext]
    · rw [remove_prev, Function.update_of_ne hxe, Function.update_of_ne hxn, hprev]
    · exact List.nodup_cons.2 ⟨fun h => hea (List.mem_cons_of_mem a h), (List.nodup_cons.1 hax).2⟩

theorem Ring.remove (hr : l.Ring h (xs ++ e :: ys)) : (l.remove e).Ring h (xs ++ ys) := by
  obtain ⟨hc, hnodup⟩ := hr
  obtain ⟨hl, hr⟩ := (chain_append e).1 hc
  obtain ⟨hh, hall⟩ := List.nodup_cons.1 hnodup
  obtain ⟨hxs, hys, hd⟩ := List.nodup_append.1 hall
  obtain ⟨hey, hys⟩ := List.nodup_cons.1 hys
  have hhe : h ≠ e := fun he => hh (he ▸ List.mem_append_right _ List.mem_cons_self)
  have hhx : h ∉ xs := fun hx => hh (List.mem_append_left _ hx)
  have hhy : h ∉ ys := fun hy => hh (List.mem_append_right _ (List.mem_cons_of_mem e hy))
  have hdy : ∀ x ∈ xs, x ∉ ys := fun x hx hy => hd x hx x (List.mem_cons_of_mem e hy) rfl
  refine ⟨hl.remove hr ?_ ?_ ?_ hhx, ?_⟩
  · refine List.nodup_cons.2 ⟨?_, List.nodup_cons.2 ⟨hhx, hxs⟩⟩
    exact mt List.mem_cons.1 (not_or.2 ⟨hhe.symm, fun hx => hd e hx e List.mem_cons_self rfl⟩)
  · refine List.nodup_cons.2 ⟨?_, ?_⟩
    · exact mt List.mem_append.1 (not_or.2 ⟨hey, fun he => hhe (List.mem_singleton.1 he).symm⟩)
    · exact List.nodup_append.2 ⟨hys, List.nodup_singleton h, fun y hy z hz => by
        rw [List.mem_singleton.1 hz]; exact ne_of_mem_of_not_mem hy hhy⟩
  · intro x hx
    rcases List.mem_cons.1 hx with rfl | hx
    · exact hhy
    · exact hdy x hx
  · refine List.nodup_cons.2 ⟨mt List.mem_append.1 (not_or.2 ⟨hhx, hhy⟩), List.nodup_append.2 ⟨hxs, hys, ?_⟩⟩
    exact fun x hx y hy heq => hdy x hx (heq ▸ hy)

/-- A removed entry may be removed again. -/
theorem alone_remove (l : Links α) (e : α) : (l.remove e).Alone e := by
  refine ⟨?_, ?_⟩
  · rw [remove_next, Function.update_self]
  · rw [remove_prev, Function.update_self]

theorem remove_alone (ha : l.Alone e) : l.remove e = l := by
  obtain ⟨hn, hp⟩ := ha
  have hnext : (l.remove e).next = l.next := by
    rw [remove_next, hp, Function.update_idem, Function.update_eq_self_iff, hn]
  have hprev : (l.remove e).prev = l.prev := by
    rw [remove_prev, hn, Function.update_idem, Function.update_eq_self_iff, hp]
  cases hl : l.remove e
  cases l
  simp_all

/-- Nothing happens to an entry that is on no list when others are inserted and removed. -/
theorem Alone.insert (ha : l.Alone a) (hr : l.Ring h xs) (hx : a ∉ h :: xs) (hae : a ≠ e) (heh : e ≠ h) :
    (l.insert h e).Alone a := by
  have hah : a ≠ h := fun h => hx (h ▸ List.mem_cons_self)
  have han : a ≠ l.next h := by
    intro hn
    have hmem := hr.chain.next_mem
    rw [← hn, List.mem_append, List.mem_singleton] at hmem
    exact hmem.elim (fun h => hx (List.mem_cons_of_mem _ h)) hah
  refine ⟨?_, ?_⟩
  · rw [insert_next, Function.update_of_ne hah, Function.update_of_ne hae]
    exact ha.1
  · rw [insert_prev heh, Function.update_of_ne han, Function.update_of_ne hae]
    exact ha.2

theorem Alone.remove (ha : l.Alone a) (hr : l.Ring h (xs ++ e :: ys)) (hx : a ∉ h :: (xs ++ e :: ys)) :
    (l.remove e).Alone a := by
  obtain ⟨hl, hr⟩ := (chain_append e).1 hr.chain
  have hmem : ∀ x, x ∈ h :: xs ∨ x = e ∨ x ∈ ys → x ∈ h :: (xs ++ e :: ys) := by
    intro x hx
    simp only [List.mem_cons, List.mem_append] at hx ⊢
    tauto
  have hae : a ≠ e := fun he => hx (hmem a (.inr (.inl he)))
  have hap : a ≠ l.prev e := fun hp => hx (hmem a (.inl (hp ▸ hl.prev_mem)))
  have han : a ≠ l.next e := by
    intro hn
    rcases List.mem_append.1 (hn ▸ hr.next_mem) with hy | hy
    · exact hx (hmem a (.inr (.inr hy)))
    · exact hx (List.mem_singleton.1 hy ▸ List.mem_cons_self)
  refine ⟨?_, ?_⟩
  · rw [remove_next, Function.update_of_ne hae, Function.update_of_ne hap]
    exact ha.1
  · rw [remove_prev, Function.update_of_ne hae, Function.update_of_ne han]
    exact ha.2

end
end Links
