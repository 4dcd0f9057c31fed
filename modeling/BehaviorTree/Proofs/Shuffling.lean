/-
  BehaviorTree.Proofs.Shuffling: every order comes out of a shuffle in exactly one way.

  A shuffle draws a place for each item from the last to the second one, below the number of places
  that are left (`bounds`), and swaps as it was told (`arrange`, `shuffleFrom_eq`). The item that
  stands last afterwards tells the first draw, as no item stands in two places, and the items before
  it tell the other draws. So the draws and the orders of the items go one by one (`arrange_bijOn`):
  if all draws are as likely, all orders are (`shuffle_exact`).
-/

import Mathlib.Data.List.Permutation
import Mathlib.Data.Set.Card
import BehaviorTree.Proofs.Draws
import BehaviorTree.Proofs.Turns

namespace BehaviorTree

namespace Generator

open scoped Nat

/-- How many places there are to choose from: all `count` of them, then one less, and two in the end. -/
def bounds (count : Nat) : List Nat := (List.range' 2 (count - 1)).reverse

/-- A choice below each of the bounds. -/
def choices (count : Nat) : Set (List Nat) := {chosen | List.Forall₂ (· < ·) chosen (bounds count)}

theorem bounds_succ (last : Nat) : bounds (last + 2) = (last + 2) :: bounds (last + 1) := by
  show (List.range' 2 (last + 1)).reverse = _
  rw [List.range'_concat, List.reverse_append, Nat.one_mul, Nat.add_comm]
  rfl

theorem mem_choices_succ {last : Nat} {chosen : List Nat} :
    chosen ∈ choices (last + 2) ↔ ∃ j others, chosen = j :: others ∧ j < last + 2 ∧ others ∈ choices (last + 1) := by
  rw [choices, Set.mem_ofPred_eq, bounds_succ, List.forall₂_cons_right_iff]
  constructor
  · rintro ⟨j, others, below, fit, rfl⟩
    exact ⟨j, others, rfl, below, fit⟩
  · rintro ⟨j, others, rfl, below, fit⟩
    exact ⟨j, others, below, fit, rfl⟩

example : bounds 5 = [5, 4, 3, 2] ∧ bounds 1 = [] ∧ bounds 0 = [] := by decide

/-! ## The draws of a shuffle -/

section
variable {γ : Type} [Generator γ] {α : Type}

/-- One draw below each of these bounds, in this order. -/
def drawEach : List UInt64 → γ → List UInt64 × γ
  | [], g => ([], g)
  | bound :: others, g =>
    let (x, g) := below g bound
    let (xs, g) := drawEach others g
    (x :: xs, g)

/-- Swaps each of the places `last, …, 1` with the one that is chosen for it. -/
def arrange : (last : Nat) → (chosen : List Nat) → Array α → Array α
  | last + 1, j :: chosen, items => arrange last chosen (items.swapIfInBounds (last + 1) j)
  | _, _, items => items

/-- The choices of a shuffle, with the generator after them. -/
def chooseAll (count : Nat) (g : γ) : List Nat × γ :=
  let (drawn, g) := drawEach ((bounds count).map UInt64.ofNat) g
  (drawn.map (·.toNat), g)

theorem shuffleFrom_eq (last : Nat) (items : Array α) (g : γ) :
    shuffleFrom last items g = (arrange last (chooseAll (last + 1) g).1 items, (chooseAll (last + 1) g).2) := by
  induction last generalizing items g with
  | zero => rfl
  | succ last ih =>
    rw [chooseAll, bounds_succ]
    exact ih _ _

theorem shuffle_eq (items : Array α) (g : γ) : shuffle items g =
    (arrange (items.size - 1) (chooseAll items.size g).1 items, (chooseAll items.size g).2) := by
  rw [shuffle, shuffleFrom_eq]
  obtain none | last := items.size <;> rfl

theorem below_lt {bound : UInt64} (positive : 0 < bound) (g : γ) : (below g bound).1 < bound := by
  unfold below
  rw [if_neg (UInt64.pos_iff_ne_zero.mp positive)]
  split
  · exact UInt64.mod_lt _ positive
  · exact positive

/-- As long as its places can be told in words, a shuffle chooses among them. -/
theorem chooseAll_mem (count : Nat) (fits : count < UInt64.size) (g : γ) : (chooseAll count g).1 ∈ choices count := by
  have each : ∀ bounds : List Nat, (∀ bound ∈ bounds, 0 < bound ∧ bound < UInt64.size) → ∀ g : γ,
      List.Forall₂ (· < ·) ((drawEach (bounds.map UInt64.ofNat) g).1.map (·.toNat)) bounds := by
    intro bounds words
    induction bounds with
    | nil => exact fun _ => .nil
    | cons bound others ih =>
      obtain ⟨⟨positive, word⟩, words⟩ := List.forall_mem_cons.mp words
      have same : (UInt64.ofNat bound).toNat = bound := UInt64.toNat_ofNat_of_lt' word
      intro g
      refine .cons ?_ (ih words _)
      have small : (below g (UInt64.ofNat bound)).1 < UInt64.ofNat bound :=
        below_lt (by rwa [UInt64.lt_iff_toNat_lt, same]) g
      rwa [UInt64.lt_iff_toNat_lt, same] at small
  refine each (bounds count) (fun bound among => ?_) g
  have := List.mem_range'_1.mp (List.mem_reverse.mp among)
  omega

end

/-! ## Choices and orders -/

section
variable {α : Type} {items order : Array α} {last i j k : Nat}

theorem getElem?_swap_left (hi : i < items.size) (hj : j < items.size) :
    (items.swapIfInBounds i j)[i]? = items[j]? := by
  rw [Array.swapIfInBounds_def, dif_pos hi, dif_pos hj, Array.getElem?_swap, if_pos rfl]
  split
  · next same => subst same; exact (Array.getElem?_eq_getElem hj).symm
  · exact (Array.getElem?_eq_getElem hj).symm

theorem getElem?_swap_apart (left : k ≠ i) (right : k ≠ j) : (items.swapIfInBounds i j)[k]? = items[k]? := by
  rw [Array.swapIfInBounds_def]
  split
  · split
    · rw [Array.getElem?_swap, if_neg right.symm, if_neg left.symm]
    · rfl
  · rfl

/-- An order of the items that differs from theirs only up to a place. -/
structure ReordersUpTo (last : Nat) (items order : Array α) : Prop where
  perm : order.Perm items
  rest : ∀ k, last < k → order[k]? = items[k]?

/-- The first place cannot be the only one that differs. -/
theorem ReordersUpTo.eq (h : ReordersUpTo 0 items order) : order = items := by
  obtain ⟨perm, rest⟩ := h
  obtain ⟨items⟩ := items
  obtain ⟨order⟩ := order
  rw [Array.perm_iff_toList_perm] at perm
  simp only [List.getElem?_toArray] at rest
  congr 1
  cases items with
  | nil => exact List.perm_nil.mp perm
  | cons a items =>
    cases order with
    | nil => exact (List.nil_perm.mp perm).symm
    | cons b order =>
      obtain rfl : order = items := List.ext_getElem? fun k => rest (k + 1) (Nat.succ_pos k)
      have first : [b].Perm [a] := (List.perm_append_right_iff order).mp perm
      rw [List.singleton_perm_singleton.mp first]

/-- What is chosen first comes to stand last. -/
theorem getElem?_last (room : last + 1 < items.size) (there : j < last + 2)
    (others : ReordersUpTo last (items.swapIfInBounds (last + 1) j) order) : order[last + 1]? = items[j]? := by
  rw [others.rest (last + 1) (Nat.lt_succ_self last), getElem?_swap_left room (by omega)]

theorem ReordersUpTo.of_swap (there : j < last + 2) (h : ReordersUpTo last (items.swapIfInBounds (last + 1) j) order) :
    ReordersUpTo (last + 1) items order where
  perm := h.perm.trans (swapIfInBounds_perm ..)
  rest k after := by rw [h.rest k (by omega), getElem?_swap_apart (by omega) (by omega)]

/-- The item that stands last was among the places that were left. -/
theorem ReordersUpTo.exists_swap (distinct : items.toList.Nodup) (room : last + 1 < items.size)
    (h : ReordersUpTo (last + 1) items order) :
    ∃ j < last + 2, ReordersUpTo last (items.swapIfInBounds (last + 1) j) order := by
  have length : order.size = items.size := h.perm.size_eq
  have final : order[last + 1]? = some order[last + 1] := Array.getElem?_eq_getElem (length ▸ room)
  obtain ⟨j, there, here⟩ := Array.mem_iff_getElem.mp (h.perm.mem_iff.mp (Array.mem_of_getElem? final))
  have here : items[j]? = order[last + 1]? := by rw [Array.getElem?_eq_getElem there, here, final]
  -- places further on are settled, and no item stands in two places
  have early : j < last + 2 := by
    refine Nat.lt_of_not_le fun late => ?_
    have again : order[j]? = order[last + 1]? := (h.rest j late).trans here
    have unique : order.toList.Nodup := (Array.perm_iff_toList_perm.mp h.perm).nodup_iff.mpr distinct
    rw [← Array.getElem?_toList, ← Array.getElem?_toList] at again
    have := (List.getElem?_inj (by rwa [Array.length_toList, length]) unique).mp again.symm
    omega
  refine ⟨j, early, h.perm.trans (swapIfInBounds_perm ..).symm, fun k after => ?_⟩
  rcases Nat.lt_or_eq_of_le after with later | rfl
  · rw [h.rest k later, getElem?_swap_apart (by omega) (by omega)]
  · rw [getElem?_swap_left room there, here]

/-- Choices and orders go one by one. -/
theorem arrange_bijOn_upTo (distinct : items.toList.Nodup) (room : last ≤ items.size - 1) :
    Set.BijOn (arrange last · items) (choices (last + 1)) {order | ReordersUpTo last items order} := by
  induction last generalizing items with
  | zero =>
    have none : choices 1 = {[]} := by
      ext chosen
      exact List.forall₂_nil_right_iff
    have same : {order | ReordersUpTo 0 items order} = {items} := by
      ext order
      exact ⟨ReordersUpTo.eq, fun same => same ▸ ⟨.refl _, fun _ _ => rfl⟩⟩
    rw [none, same]
    exact Set.bijOn_singleton.mpr rfl
  | succ last ih =>
    have room : last + 1 < items.size := by omega
    have swapped {j : Nat} (there : j < last + 2) : Set.BijOn (arrange last · (items.swapIfInBounds (last + 1) j))
        (choices (last + 1)) {order | ReordersUpTo last (items.swapIfInBounds (last + 1) j) order} :=
      ih ((Array.perm_iff_toList_perm.mp (swapIfInBounds_perm ..)).nodup_iff.mpr distinct)
        (by rw [Array.size_swapIfInBounds]; omega)
    refine ⟨?maps, ?injective, ?surjective⟩
    case maps =>
      intro chosen fit
      obtain ⟨j, others, rfl, there, fit⟩ := mem_choices_succ.mp fit
      exact .of_swap there ((swapped there).mapsTo fit)
    case injective =>
      intro chosen mem chosen' mem' same
      obtain ⟨j, others, rfl, there, fit⟩ := mem_choices_succ.mp mem
      obtain ⟨j', others', rfl, there', fit'⟩ := mem_choices_succ.mp mem'
      have place := getElem?_last room there ((swapped there).mapsTo fit)
      have place' := getElem?_last room there' ((swapped there').mapsTo fit')
      change arrange last others _ = arrange last others' _ at same
      rw [same, place', ← Array.getElem?_toList, ← Array.getElem?_toList] at place
      obtain rfl : j' = j := (List.getElem?_inj (by rw [Array.length_toList]; omega) distinct).mp place
      rw [(swapped there).injOn fit fit' same]
    case surjective =>
      intro order reorders
      obtain ⟨j, there, others⟩ := ReordersUpTo.exists_swap distinct room reorders
      obtain ⟨chosen, fit, rfl⟩ := (swapped there).surjOn others
      exact ⟨j :: chosen, mem_choices_succ.mpr ⟨j, chosen, rfl, there, fit⟩, rfl⟩

theorem reordersUpTo_last : ReordersUpTo (items.size - 1) items order ↔ order.Perm items := by
  refine ⟨ReordersUpTo.perm, fun perm => ⟨perm, fun k after => ?_⟩⟩
  have length := perm.size_eq
  rw [Array.getElem?_eq_none (by omega), Array.getElem?_eq_none (by omega)]

theorem arrange_bijOn (distinct : items.toList.Nodup) :
    Set.BijOn (arrange (items.size - 1) · items) (choices items.size) {order | order.Perm items} := by
  have upTo := arrange_bijOn_upTo distinct (Nat.le_refl (items.size - 1))
  have same : choices (items.size - 1 + 1) = choices items.size := by obtain _ | _ := items.size <;> rfl
  simpa only [reordersUpTo_last, same] using upTo

/-! ## How many there are -/

theorem ncard_orders (distinct : items.toList.Nodup) : {order : Array α | order.Perm items}.ncard = items.size ! := by
  classical
  have lists : Array.toList '' {order | order.Perm items} = items.toList.permutations.toFinset := by
    ext order
    simp only [Set.mem_image, Set.mem_ofPred_eq, List.coe_toFinset, List.mem_permutations]
    constructor
    · rintro ⟨order, perm, rfl⟩
      exact Array.perm_iff_toList_perm.mp perm
    · exact fun perm => ⟨⟨order⟩, Array.perm_iff_toList_perm.mpr perm, rfl⟩
  rw [← Set.ncard_image_of_injective _ fun _ _ => Array.toList_inj.mp, lists, Set.ncard_coe_finset,
    List.toFinset_card_of_nodup (List.nodup_permutations _ distinct), List.length_permutations, Array.length_toList]

/-- As many choices lead to one of the wanted orders as there are such orders. -/
theorem ncard_leading (distinct : items.toList.Nodup) (wanted : Set (Array α)) :
    {chosen ∈ choices items.size | arrange (items.size - 1) chosen items ∈ wanted}.ncard =
      {order ∈ wanted | order.Perm items}.ncard := by
  obtain ⟨maps, injective, surjective⟩ := arrange_bijOn distinct
  refine Set.BijOn.ncard_eq (f := (arrange (items.size - 1) · items)) ⟨?_, injective.mono fun _ => And.left, ?_⟩
  · exact fun chosen h => ⟨h.2, maps h.1⟩
  · rintro order ⟨want, perm⟩
    obtain ⟨chosen, fit, rfl⟩ := surjective perm
    exact ⟨chosen, ⟨fit, want⟩, rfl⟩

end

/-- Shuffles of items that are all distinct. A shuffle draws below the number of items, below one less, and so on down
to two, takes these draws for its choices, and does nothing else; each choice is below its bound, as the number of
items is one that words can tell. The choices go one by one with the orders of the items. There are as many of them as
there are orders, and as many lead to one of some orders as there are orders among these: where all choices are as
likely, so are all orders. -/
theorem shuffle_exact {α : Type} (items : Array α) (distinct : items.toList.Nodup) :
    (∀ (γ : Type) [Generator γ] (g : γ),
      shuffle items g = (arrange (items.size - 1) (chooseAll items.size g).1 items, (chooseAll items.size g).2) ∧
      (items.size < UInt64.size → (chooseAll items.size g).1 ∈ choices items.size)) ∧
    Set.BijOn (arrange (items.size - 1) · items) (choices items.size) {order | order.Perm items} ∧
    (choices items.size).ncard = items.size ! ∧ {order : Array α | order.Perm items}.ncard = items.size ! ∧
    ∀ wanted : Set (Array α), {chosen ∈ choices items.size | arrange (items.size - 1) chosen items ∈ wanted}.ncard =
      {order ∈ wanted | order.Perm items}.ncard :=
  ⟨fun _ _ g => ⟨shuffle_eq items g, fun fits => chooseAll_mem items.size fits g⟩, arrange_bijOn distinct,
    (arrange_bijOn distinct).ncard_eq.trans (ncard_orders distinct), ncard_orders distinct, ncard_leading distinct⟩

/-- Three items: six orders, of which a draw of the second place out of three and of the second out of two gives one. -/
theorem shuffle_exact_three : ([10, 20, 30] : List Nat).Nodup ∧
    shuffle #[10, 20, 30] (Replay.mk [4, 1, 8]) = (#[10, 30, 20], ⟨[8]⟩) ∧ [1, 1] ∈ choices 3 ∧
    (choices 3).ncard = 6 ∧ {chosen ∈ choices 3 | arrange 2 chosen #[10, 20, 30] = #[10, 30, 20]}.ncard = 1 := by
  have distinct : ([10, 20, 30] : List Nat).Nodup := by decide
  obtain ⟨shuffled, -, many, -, leading⟩ := shuffle_exact #[10, 20, 30] distinct
  obtain ⟨result, among⟩ := shuffled Replay ⟨[4, 1, 8]⟩
  have one : {order ∈ ({#[10, 30, 20]} : Set (Array Nat)) | order.Perm #[10, 20, 30]} = {#[10, 30, 20]} := by
    refine Set.sep_eq_self_iff_mem_true.mpr ?_
    rintro _ rfl
    exact Array.perm_iff_toList_perm.mpr (by decide)
  exact ⟨distinct, result, among (by decide), many, (leading {#[10, 30, 20]}).trans (by rw [one, Set.ncard_singleton])⟩

end Generator

end BehaviorTree
