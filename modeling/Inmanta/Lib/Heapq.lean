import Mathlib.Data.List.Basic
import Mathlib.Data.List.Perm.Basic

/-!
# A binary heap in a list

The heap algorithm of the standard library, for an arbitrary comparison:
the entries may be references whose order depends on a state that changes
while they are in the heap, so the comparison is an argument of every
operation. The entry that is being moved is held aside and written once.

The operations keep the entries (`heappush_perm`, `heappop_perm`) and the
order (`heappush_ordered`, `heappop_ordered`), which `heapify` restores, and what is popped is no larger
than what stays (`heappop_le`). The order has to be one on the entries at hand
only.
-/

namespace Inmanta

open scoped List

variable {α : Type}

/-- Move `item` from position `pos` towards the root, past the parents it is
smaller than. -/
def siftDown (lt : α → α → Bool) (item : α) : ℕ → ℕ → List α → List α
  | 0, pos, heap => heap.set pos item
  | fuel + 1, pos, heap =>
      match pos with
      | 0 => heap.set 0 item
      | p + 1 =>
          match heap[p / 2]? with
          | none => heap.set (p + 1) item
          | some parent =>
              if lt item parent then siftDown lt item fuel (p / 2) (heap.set (p + 1) parent)
              else heap.set (p + 1) item

/-- Bubble up the smaller child until a leaf is hit, then move `item` back
towards the root from there. -/
def siftUp (lt : α → α → Bool) (item : α) : ℕ → ℕ → List α → List α
  | 0, pos, heap => heap.set pos item
  | fuel + 1, pos, heap =>
      match heap[2 * pos + 1]?, heap[2 * pos + 2]? with
      | none, _ => siftDown lt item pos pos heap
      | some left, none => siftUp lt item fuel (2 * pos + 1) (heap.set pos left)
      | some left, some right =>
          if lt left right then siftUp lt item fuel (2 * pos + 1) (heap.set pos left)
          else siftUp lt item fuel (2 * pos + 2) (heap.set pos right)

def heappush (lt : α → α → Bool) (heap : List α) (item : α) : List α :=
  siftDown lt item heap.length heap.length (heap ++ [item])

/-- The smallest entry and the rest of the heap. -/
def heappop (lt : α → α → Bool) (heap : List α) : Option (α × List α) :=
  match heap.getLast? with
  | none => none
  | some last =>
      match heap.dropLast with
      | [] => some (last, [])
      | root :: rest => some (root, siftUp lt last (rest.length + 1) 0 (last :: rest))

/-- Make the list a heap again. What is promised is a heap with the same
entries; which entry of several equal ones comes first is not. -/
def heapify (lt : α → α → Bool) (heap : List α) : List α :=
  heap.foldl (heappush lt) []

example : (heappop (fun a b => decide (a < b)) ([5, 3, 8, 1].foldl
    (heappush fun a b => decide (a < b)) [])).map Prod.fst = some 1 := by decide

/-! ## The entries -/

variable {lt : α → α → Bool} {item : α} {heap : List α}

theorem set_set_swap_perm {i j : ℕ} {a : α} (hi : i < heap.length) (hij : i ≠ j)
    (hj : heap[j]? = some a) : (heap.set i a).set j item ~ heap.set i item := by
  obtain ⟨hlt, hget⟩ := List.getElem?_eq_some_iff.mp hj
  have hi' : i < (heap.set i item).length := by simpa using hi
  have hj' : j < (heap.set i item).length := by simpa using hlt
  have h := List.set_set_perm hi' hj'
  rw [List.getElem_set_self, List.getElem_set_ne hij, List.set_set, hget] at h
  exact h

theorem siftDown_perm {fuel pos : ℕ} (hpos : pos < heap.length) :
    siftDown lt item fuel pos heap ~ heap.set pos item := by
  induction fuel generalizing pos heap with
  | zero => exact .refl _
  | succ fuel ih =>
      unfold siftDown
      cases pos with
      | zero => exact .refl _
      | succ p =>
          dsimp only
          split
          · exact .refl _
          · next parent hparent =>
            split
            · refine (ih (by rw [List.length_set]; omega)).trans ?_
              exact set_set_swap_perm hpos (by omega) hparent
            · exact .refl _

theorem siftUp_perm {fuel pos : ℕ} (hpos : pos < heap.length) :
    siftUp lt item fuel pos heap ~ heap.set pos item := by
  induction fuel generalizing pos heap with
  | zero => exact .refl _
  | succ fuel ih =>
      have hmove : ∀ c a, c ≠ pos → heap[c]? = some a →
          siftUp lt item fuel c (heap.set pos a) ~ heap.set pos item := fun c a hc ha => by
        have hlt := (List.getElem?_eq_some_iff.mp ha).1
        refine (ih (by rw [List.length_set]; exact hlt)).trans ?_
        exact set_set_swap_perm hpos (Ne.symm hc) ha
      unfold siftUp
      split
      · exact siftDown_perm hpos
      · next left hleft _ => exact hmove _ left (by omega) hleft
      · next left right hleft hright =>
        split
        · exact hmove _ left (by omega) hleft
        · exact hmove _ right (by omega) hright

theorem heappush_perm : heappush lt heap item ~ item :: heap := by
  refine (siftDown_perm (by simp)).trans ?_
  rw [List.set_append_right _ _ (Nat.le_refl _), Nat.sub_self]
  exact List.perm_append_singleton item heap

theorem heappop_perm {root : α} {rest : List α} (h : heappop lt heap = some (root, rest)) :
    root :: rest ~ heap := by
  unfold heappop at h
  split at h
  · cases h
  · next last hlast =>
    have hheap : heap = heap.dropLast ++ [last] := (List.dropLast_append_getLast? last hlast).symm
    split at h
    · next hdrop =>
      obtain ⟨rfl, rfl⟩ := Prod.mk.inj (Option.some.inj h)
      rw [hdrop] at hheap
      rw [hheap]
      exact .refl _
    · next root' rest' hdrop =>
      obtain ⟨rfl, rfl⟩ := Prod.mk.inj (Option.some.inj h)
      rw [hdrop] at hheap
      rw [hheap]
      refine ((siftUp_perm (by simp)).cons root').trans ?_
      rw [List.set_cons_zero]
      exact (List.perm_append_singleton last rest').symm.cons root'

theorem foldl_heappush_perm (entries : List α) :
    entries.foldl (heappush lt) heap ~ entries ++ heap := by
  induction entries generalizing heap with
  | nil => exact .refl _
  | cons x entries ih =>
      refine ih.trans ((heappush_perm.append_left entries).trans ?_)
      exact List.perm_middle

theorem heapify_perm : heapify lt heap ~ heap := by
  have h : heapify lt heap ~ heap ++ [] := foldl_heappush_perm heap
  rwa [List.append_nil] at h

/-! ## The order -/

/-- `lt` is the strict part of a total preorder on the entries that satisfy
`p`. -/
structure WeakOrder (lt : α → α → Bool) (p : α → Prop) : Prop where
  asymm : ∀ a b, p a → p b → lt a b = true → lt b a = false
  trans : ∀ a b c, p a → p b → p c → lt b a = false → lt c b = false → lt c a = false

/-- No entry is smaller than its parent. -/
def Ordered (lt : α → α → Bool) (heap : List α) : Prop :=
  ∀ i a b, 0 < i → heap[(i - 1) / 2]? = some a → heap[i]? = some b → lt b a = false

theorem Ordered.congr {lt' : α → α → Bool} (h : Ordered lt heap)
    (heq : ∀ a ∈ heap, ∀ b ∈ heap, lt' a b = lt a b) : Ordered lt' heap := by
  intro i a b hi ha hb
  rw [heq b (List.mem_of_getElem? hb) a (List.mem_of_getElem? ha)]
  exact h i a b hi ha hb

/-- A heap with a hole: the pairs off the hole are in order, and the children of
the hole are not smaller than its parent. -/
structure HoleOrder (lt : α → α → Bool) (heap : List α) (hole : ℕ) : Prop where
  except : ∀ i a b, 0 < i → i ≠ hole → (i - 1) / 2 ≠ hole → heap[(i - 1) / 2]? = some a →
    heap[i]? = some b → lt b a = false
  grand : ∀ c a b, 0 < hole → 0 < c → (c - 1) / 2 = hole → heap[(hole - 1) / 2]? = some a →
    heap[c]? = some b → lt b a = false

/-- The children of the hole are not smaller than the entry that fills it. -/
def Below (lt : α → α → Bool) (heap : List α) (hole : ℕ) (item : α) : Prop :=
  ∀ c b, 0 < c → (c - 1) / 2 = hole → heap[c]? = some b → lt b item = false

theorem getElem?_set_eq {i : ℕ} {a b : α} (h : (heap.set i a)[i]? = some b) : b = a := by
  rw [List.getElem?_set_self'] at h
  cases hi : heap[i]? with
  | none => rw [hi] at h; cases h
  | some c => rw [hi] at h; exact (Option.some.inj h).symm

theorem HoleOrder.finish {hole : ℕ} (h : HoleOrder lt heap hole) (hb : Below lt heap hole item)
    (hstop : ∀ a, 0 < hole → heap[(hole - 1) / 2]? = some a → lt item a = false) :
    Ordered lt (heap.set hole item) := by
  intro i a b hi ha hb'
  by_cases hih : hole = i
  · subst hih
    rw [List.getElem?_set_ne (by omega)] at ha
    rw [getElem?_set_eq hb']
    exact hstop a hi ha
  · rw [List.getElem?_set_ne hih] at hb'
    by_cases hph : hole = (i - 1) / 2
    · rw [← hph] at ha
      rw [getElem?_set_eq ha]
      exact hb i b hi hph.symm hb'
    · rw [List.getElem?_set_ne hph] at ha
      exact h.except i a b hi (Ne.symm hih) (Ne.symm hph) ha hb'

/-- A parent that is larger than the entry moves into the hole. -/
theorem HoleOrder.moveParent {p : α → Prop} {hole : ℕ} {parent : α} (hw : WeakOrder lt p)
    (h : HoleOrder lt heap hole) (hp : ∀ x ∈ heap, p x) (hitem : p item) (hpos : 0 < hole)
    (hparent : heap[(hole - 1) / 2]? = some parent) (hlt : lt item parent = true) :
    HoleOrder lt (heap.set hole parent) ((hole - 1) / 2) ∧
      Below lt (heap.set hole parent) ((hole - 1) / 2) item := by
  have hpp : p parent := hp _ (List.mem_of_getElem? hparent)
  have hasymm := hw.asymm item parent hitem hpp hlt
  refine ⟨⟨fun i a b hi hne hpne ha hb => ?_, fun c a b hg hc hcp ha hb => ?_⟩,
    fun c b hc hcp hb => ?_⟩
  · by_cases hih : hole = i
    · exact absurd (by rw [hih]) hpne
    · rw [List.getElem?_set_ne hih] at hb
      by_cases hph : hole = (i - 1) / 2
      · rw [← hph] at ha
        rw [getElem?_set_eq ha]
        exact h.grand i parent b hpos hi hph.symm hparent hb
      · rw [List.getElem?_set_ne hph] at ha
        exact h.except i a b hi (Ne.symm hih) (Ne.symm hph) ha hb
  · rw [List.getElem?_set_ne (by omega)] at ha
    have hup := h.except ((hole - 1) / 2) a parent hg (by omega) (by omega) ha hparent
    by_cases hch : hole = c
    · subst hch
      rw [getElem?_set_eq hb]
      exact hup
    · rw [List.getElem?_set_ne hch] at hb
      have hside := h.except c parent b hc (Ne.symm hch) (by omega) (hcp.symm ▸ hparent) hb
      exact hw.trans a parent b (hp _ (List.mem_of_getElem? ha)) hpp
        (hp _ (List.mem_of_getElem? hb)) hup hside
  · by_cases hch : hole = c
    · subst hch
      rw [getElem?_set_eq hb]
      exact hasymm
    · rw [List.getElem?_set_ne hch] at hb
      have hside := h.except c parent b hc (Ne.symm hch) (by omega) (hcp.symm ▸ hparent) hb
      exact hw.trans item parent b hitem hpp (hp _ (List.mem_of_getElem? hb)) hasymm hside

theorem siftDown_ordered {p : α → Prop} {fuel pos : ℕ} (hw : WeakOrder lt p)
    (hp : ∀ x ∈ heap, p x) (hitem : p item) (hfuel : pos ≤ fuel) (h : HoleOrder lt heap pos)
    (hb : Below lt heap pos item) : Ordered lt (siftDown lt item fuel pos heap) := by
  induction fuel generalizing pos heap with
  | zero =>
      refine h.finish hb fun a hpos => ?_
      omega
  | succ fuel ih =>
      unfold siftDown
      cases pos with
      | zero => exact h.finish hb fun a hpos => absurd hpos (Nat.lt_irrefl 0)
      | succ q =>
          dsimp only
          split
          · next hnone =>
            refine h.finish hb fun a _ ha => ?_
            rw [Nat.add_sub_cancel, hnone] at ha
            cases ha
          · next parent hparent =>
            split
            · next hlt =>
              obtain ⟨h', hb'⟩ := h.moveParent hw hp hitem (Nat.succ_pos q)
                (by rwa [Nat.add_sub_cancel]) hlt
              rw [Nat.add_sub_cancel] at h' hb'
              refine ih (fun x hx => ?_) (by omega) h' hb'
              obtain hx | rfl := List.mem_or_eq_of_mem_set hx
              · exact hp x hx
              · exact hp _ (List.mem_of_getElem? hparent)
            · next hlt =>
              refine h.finish hb fun a _ ha => ?_
              rw [Nat.add_sub_cancel, hparent] at ha
              obtain rfl := Option.some.inj ha
              exact Bool.eq_false_iff.mpr hlt

/-- A child that is not larger than its sibling moves into the hole. -/
theorem HoleOrder.moveChild {hole c : ℕ} {child : α} (h : HoleOrder lt heap hole)
    (hc : 0 < c) (hcp : (c - 1) / 2 = hole) (hchild : heap[c]? = some child)
    (hmin : ∀ s b, 0 < s → s ≠ c → (s - 1) / 2 = hole → heap[s]? = some b → lt b child = false) :
    HoleOrder lt (heap.set hole child) c := by
  refine ⟨fun i a b hi hne hpne ha hb => ?_, fun d a b _ hd hdp ha hb => ?_⟩
  · by_cases hih : hole = i
    · subst hih
      rw [List.getElem?_set_ne (by omega)] at ha
      rw [getElem?_set_eq hb]
      exact h.grand c a child hi hc hcp ha hchild
    · rw [List.getElem?_set_ne hih] at hb
      by_cases hph : hole = (i - 1) / 2
      · rw [← hph] at ha
        rw [getElem?_set_eq ha]
        exact hmin i b hi hne hph.symm hb
      · rw [List.getElem?_set_ne hph] at ha
        exact h.except i a b hi (Ne.symm hih) (Ne.symm hph) ha hb
  · rw [hcp] at ha
    rw [getElem?_set_eq ha]
    rw [List.getElem?_set_ne (by omega)] at hb
    exact h.except d child b hd (by omega) (by omega) (hdp.symm ▸ hchild) hb

theorem siftUp_ordered {p : α → Prop} {fuel pos : ℕ} (hw : WeakOrder lt p)
    (hp : ∀ x ∈ heap, p x) (hitem : p item) (hpos : pos < heap.length)
    (hfuel : heap.length ≤ fuel + pos) (h : HoleOrder lt heap pos) :
    Ordered lt (siftUp lt item fuel pos heap) := by
  induction fuel generalizing pos heap with
  | zero => omega
  | succ fuel ih =>
      have hmove : ∀ c child, 0 < c → (c - 1) / 2 = pos → heap[c]? = some child →
          (∀ s b, 0 < s → s ≠ c → (s - 1) / 2 = pos → heap[s]? = some b → lt b child = false) →
          Ordered lt (siftUp lt item fuel c (heap.set pos child)) :=
        fun c child hc hcp hchild hmin => by
          have hlt := (List.getElem?_eq_some_iff.mp hchild).1
          refine ih (fun x hx => ?_) (by rw [List.length_set]; exact hlt)
            (by rw [List.length_set]; omega) (h.moveChild hc hcp hchild hmin)
          obtain hx | rfl := List.mem_or_eq_of_mem_set hx
          · exact hp x hx
          · exact hp _ (List.mem_of_getElem? hchild)
      unfold siftUp
      split
      · next hleft =>
        refine siftDown_ordered hw hp hitem (Nat.le_refl _) h fun c b hc hcp hb => ?_
        have hlen : heap.length ≤ 2 * pos + 1 := List.getElem?_eq_none_iff.mp hleft
        have hclt := (List.getElem?_eq_some_iff.mp hb).1
        omega
      · next left hleft hright =>
        refine hmove _ left (by omega) (by omega) hleft fun s b hs hne hsp hb => ?_
        have hlen : heap.length ≤ 2 * pos + 2 := List.getElem?_eq_none_iff.mp hright
        have hslt := (List.getElem?_eq_some_iff.mp hb).1
        omega
      · next left right hleft hright =>
        have hpl := hp _ (List.mem_of_getElem? hleft)
        have hpr := hp _ (List.mem_of_getElem? hright)
        split
        · next hlt =>
          refine hmove _ left (by omega) (by omega) hleft fun s b hs hne hsp hb => ?_
          obtain rfl : s = 2 * pos + 2 := by omega
          obtain rfl := Option.some.inj (hright.symm.trans hb)
          exact hw.asymm _ _ hpl hpr hlt
        · next hlt =>
          refine hmove _ right (by omega) (by omega) hright fun s b hs hne hsp hb => ?_
          obtain rfl : s = 2 * pos + 1 := by omega
          obtain rfl := Option.some.inj (hleft.symm.trans hb)
          exact Bool.eq_false_iff.mpr hlt

theorem heappush_ordered {p : α → Prop} (hw : WeakOrder lt p) (hp : ∀ x ∈ heap, p x)
    (hitem : p item) (h : Ordered lt heap) : Ordered lt (heappush lt heap item) := by
  have hnew : ∀ i b, (heap ++ [item])[i]? = some b → i ≠ heap.length → heap[i]? = some b :=
    fun i b hb hne => by
      have hlt := (List.getElem?_eq_some_iff.mp hb).1
      rw [List.length_append, List.length_singleton] at hlt
      rwa [List.getElem?_append_left (by omega)] at hb
  refine siftDown_ordered hw (fun x hx => ?_) hitem (Nat.le_refl _) ⟨?_, ?_⟩ ?_
  · obtain hx | hx := List.mem_append.mp hx
    · exact hp x hx
    · rw [List.mem_singleton.mp hx]
      exact hitem
  · intro i a b hi hne hpne ha hb
    exact h i a b hi (hnew _ _ ha hpne) (hnew _ _ hb hne)
  · intro c a b hpos hc hcp ha hb
    have hlt := (List.getElem?_eq_some_iff.mp hb).1
    rw [List.length_append, List.length_singleton] at hlt
    omega
  · intro c b hc hcp hb
    have hlt := (List.getElem?_eq_some_iff.mp hb).1
    rw [List.length_append, List.length_singleton] at hlt
    omega

theorem foldl_heappush_ordered {p : α → Prop} (hw : WeakOrder lt p) {entries : List α}
    (hentries : ∀ x ∈ entries, p x) (hp : ∀ x ∈ heap, p x) (h : Ordered lt heap) :
    Ordered lt (entries.foldl (heappush lt) heap) := by
  induction entries generalizing heap with
  | nil => exact h
  | cons x entries ih =>
      have hx := hentries x List.mem_cons_self
      refine ih (fun y hy => hentries y (List.mem_cons_of_mem x hy)) (fun y hy => ?_)
        (heappush_ordered hw hp hx h)
      obtain rfl | hy := List.mem_cons.mp (heappush_perm.mem_iff.mp hy)
      · exact hx
      · exact hp y hy

theorem heapify_ordered {p : α → Prop} (hw : WeakOrder lt p) (hp : ∀ x ∈ heap, p x) :
    Ordered lt (heapify lt heap) :=
  foldl_heappush_ordered hw hp (fun _ h => absurd h List.not_mem_nil) fun _ _ _ _ ha => by cases ha

theorem Ordered.root_le {p : α → Prop} (hw : WeakOrder lt p) (hp : ∀ x ∈ heap, p x)
    (h : Ordered lt heap) {root : α} (hroot : heap[0]? = some root) (i : ℕ) (b : α)
    (hb : heap[i]? = some b) : lt b root = false := by
  induction i using Nat.strongRecOn generalizing b with
  | _ i ih =>
      have hproot := hp _ (List.mem_of_getElem? hroot)
      by_cases hi : i = 0
      · subst hi
        obtain rfl := Option.some.inj (hroot.symm.trans hb)
        cases hself : lt root root with
        | false => rfl
        | true => exact absurd (hw.asymm root root hproot hproot hself) (by rw [hself]; decide)
      · have hlt := (List.getElem?_eq_some_iff.mp hb).1
        obtain ⟨a, ha⟩ : ∃ a, heap[(i - 1) / 2]? = some a :=
          ⟨_, List.getElem?_eq_getElem (by omega)⟩
        exact hw.trans root a b hproot (hp _ (List.mem_of_getElem? ha))
          (hp _ (List.mem_of_getElem? hb)) (ih _ (by omega) a ha)
          (h i a b (by omega) ha hb)

theorem heappop_ordered {p : α → Prop} (hw : WeakOrder lt p) (hp : ∀ x ∈ heap, p x)
    (h : Ordered lt heap) {root : α} {rest : List α} (hpop : heappop lt heap = some (root, rest)) :
    Ordered lt rest := by
  unfold heappop at hpop
  split at hpop
  · cases hpop
  · next last hlast =>
    have hheap : heap = heap.dropLast ++ [last] := (List.dropLast_append_getLast? last hlast).symm
    split at hpop
    · obtain ⟨rfl, rfl⟩ := Prod.mk.inj (Option.some.inj hpop)
      intro i a b _ ha
      cases ha
    · next root' rest' hdrop =>
      obtain ⟨rfl, rfl⟩ := Prod.mk.inj (Option.some.inj hpop)
      rw [hdrop] at hheap
      have hget : ∀ i b, (last :: rest')[i]? = some b → 0 < i → heap[i]? = some b :=
        fun i b hb hi => by
          have hlt := (List.getElem?_eq_some_iff.mp hb).1
          rw [hheap, List.getElem?_append_left (by simpa using hlt)]
          cases i with
          | zero => omega
          | succ i => exact hb
      refine siftUp_ordered hw (fun x hx => ?_) (hp _ (List.mem_of_getLast? hlast)) (by simp)
        (by simp) ⟨?_, ?_⟩
      · obtain rfl | hx := List.mem_cons.mp hx
        · exact hp _ (List.mem_of_getLast? hlast)
        · exact hp _ (hheap ▸ List.mem_append_left _ (List.mem_cons_of_mem _ hx))
      · intro i a b hi hne hpne ha hb
        exact h i a b hi (hget _ _ ha (Nat.pos_of_ne_zero hpne)) (hget _ _ hb hi)
      · intro c a b hpos
        exact absurd hpos (Nat.lt_irrefl 0)

theorem exists_heappop (h : heap ≠ []) : ∃ root rest, heappop lt heap = some (root, rest) := by
  unfold heappop
  split
  · next hlast => exact absurd (List.getLast?_eq_none_iff.mp hlast) h
  · split <;> exact ⟨_, _, rfl⟩

theorem heappop_root {root : α} {rest : List α} (hpop : heappop lt heap = some (root, rest)) :
    heap[0]? = some root := by
  unfold heappop at hpop
  split at hpop
  · cases hpop
  · next last hlast =>
    have hheap : heap = heap.dropLast ++ [last] :=
      (List.dropLast_append_getLast? last hlast).symm
    split at hpop
    · next hdrop =>
      obtain ⟨rfl, rfl⟩ := Prod.mk.inj (Option.some.inj hpop)
      rw [hheap, hdrop]
      rfl
    · next root' rest' hdrop =>
      obtain ⟨rfl, rfl⟩ := Prod.mk.inj (Option.some.inj hpop)
      rw [hheap, hdrop]
      rfl

/-- What is popped is not larger than what stays. -/
theorem heappop_le {p : α → Prop} (hw : WeakOrder lt p) (hp : ∀ x ∈ heap, p x)
    (h : Ordered lt heap) {root : α} {rest : List α} (hpop : heappop lt heap = some (root, rest)) :
    ∀ x ∈ rest, lt x root = false := by
  intro x hx
  obtain ⟨i, hi⟩ := List.mem_iff_getElem?.mp
    ((heappop_perm hpop).mem_iff.mp (List.mem_cons_of_mem _ hx))
  exact h.root_le hw hp (heappop_root hpop) i x hi

end Inmanta
