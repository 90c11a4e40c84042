import Mathlib

/-!
# Lists of pairs and pairs of lists

What is found in a list of pairs by its key, and what is known of the members of two lists that are
related member by member.
-/

namespace GraphReduction

open List

section Lookup

variable {κ β : Type} [BEq κ] [LawfulBEq κ] {entries : List (κ × β)} {k : κ} {b : β} {ks : List κ} {bs : List β}

theorem mem_of_lookup (h : entries.lookup k = some b) : (k, b) ∈ entries := by
  obtain ⟨before, after, rfl, -⟩ := lookup_eq_some_iff.1 h
  exact mem_append_right _ mem_cons_self

theorem lookup_eq_none : entries.lookup k = none ↔ k ∉ entries.map Prod.fst := by
  rw [lookup_eq_none_iff, mem_map, not_exists]
  exact forall_congr' fun e => by rw [bne_iff_ne, not_and, Ne, eq_comm]

theorem lookup_of_mem (hnodup : (entries.map Prod.fst).Nodup) (h : (k, b) ∈ entries) :
    entries.lookup k = some b := by
  obtain ⟨before, after, rfl⟩ := append_of_mem h
  refine lookup_eq_some_iff.2 ⟨before, after, rfl, fun p hp => ?_⟩
  rw [map_append, map_cons] at hnodup
  have hne := disjoint_of_nodup_append hnodup (mem_map_of_mem hp)
  rw [bne_iff_ne]
  rintro rfl
  exact hne mem_cons_self

theorem getElem?_of_lookup_zip (h : (ks.zip bs).lookup k = some b) :
    ∃ i : Nat, ks[i]? = some k ∧ bs[i]? = some b := by
  obtain ⟨i, hi⟩ := getElem?_of_mem (mem_of_lookup h)
  exact ⟨i, getElem?_zip_eq_some.1 hi⟩

theorem lookup_zip_of_getElem? (hnodup : ks.Nodup) (hlen : bs.length = ks.length) {i : Nat}
    (hk : ks[i]? = some k) (hb : bs[i]? = some b) : (ks.zip bs).lookup k = some b := by
  refine lookup_of_mem ?_ (mem_of_getElem? (getElem?_zip_eq_some.2 ⟨hk, hb⟩))
  rwa [map_fst_zip hlen.ge]

theorem exists_lookup_zip (hlen : bs.length = ks.length) (h : k ∈ ks) :
    ∃ b, (ks.zip bs).lookup k = some b := by
  rw [← Option.ne_none_iff_exists', Ne, lookup_eq_none, map_fst_zip hlen.ge, not_not]
  exact h

end Lookup

section Related

variable {α β : Type} {R : α → β → Prop} {as : List α} {bs : List β}

theorem forall₂_of_getElem? (hlen : as.length = bs.length)
    (h : ∀ (i : Nat) a b, as[i]? = some a → bs[i]? = some b → R a b) : Forall₂ R as bs := by
  refine forall₂_iff_get.2 ⟨hlen, fun i hi hi' => ?_⟩
  exact h i _ _ (getElem?_eq_getElem hi) (getElem?_eq_getElem hi')

theorem exists_getElem?_of_forall₂ (h : Forall₂ R as bs) {i : Nat} {a : α} (ha : as[i]? = some a) :
    ∃ b, bs[i]? = some b ∧ R a b := by
  obtain ⟨hlt, rfl⟩ := List.getElem?_eq_some_iff.1 ha
  have hlt' : i < bs.length := h.length_eq ▸ hlt
  exact ⟨bs[i], getElem?_eq_getElem hlt', h.get hlt hlt'⟩

theorem getElem?_of_forall₂ (h : Forall₂ R as bs) :
    ∀ (i : Nat) a b, as[i]? = some a → bs[i]? = some b → R a b := by
  intro i a b ha hb
  obtain ⟨b', hb', hR⟩ := exists_getElem?_of_forall₂ h ha
  rw [hb] at hb'
  cases hb'
  exact hR

theorem exists_of_forall₂ (h : Forall₂ R as bs) {a : α} (ha : a ∈ as) : ∃ b ∈ bs, R a b := by
  obtain ⟨i, hi⟩ := getElem?_of_mem ha
  obtain ⟨b, hb, hR⟩ := exists_getElem?_of_forall₂ h hi
  exact ⟨b, mem_of_getElem? hb, hR⟩

theorem forall₂_join {γ : Type} {S : α → γ → Prop} {T : β → γ → Prop} {cs : List γ}
    (hR : Forall₂ R as bs) (hS : Forall₂ S as cs) (hT : ∀ a b c, R a b → S a c → T b c) :
    Forall₂ T bs cs := by
  induction hR generalizing cs with
  | nil =>
    cases hS
    exact .nil
  | cons hab _ ih =>
    cases hS with
    | cons hac hS => exact .cons (hT _ _ _ hab hac) (ih hS)

end Related

end GraphReduction
