import Mathlib.Tactic
import Mathlib.Data.List.Perm.Basic
import Mathlib.Data.List.Nodup
import Mathlib.Data.List.TakeWhile

/-!
Lists kept in strictly ascending order of a numeric key, where the first
element offered with a key is kept and later ones are dropped. `firsts` is the
specification of such a list by the sequence of elements offered to it.
-/

namespace SortedKeys

variable {α : Type*} (key : α → Nat)

/-- Keys strictly increase from left to right. -/
def Ascending (l : List α) : Prop := l.Pairwise (fun a b => key a < key b)

/-- The elements of a sequence whose key did not occur before them. -/
def firsts (l : List α) : List α :=
  l.foldl (fun kept a => if key a ∈ kept.map key then kept else kept ++ [a]) []

@[simp] theorem firsts_nil : firsts key ([] : List α) = [] := rfl

theorem firsts_concat (l : List α) (a : α) :
    firsts key (l ++ [a]) =
      if key a ∈ (firsts key l).map key then firsts key l else firsts key l ++ [a] := by
  rw [firsts, List.foldl_append]
  rfl

theorem mem_keys_firsts (l : List α) (k : Nat) :
    k ∈ (firsts key l).map key ↔ k ∈ l.map key := by
  induction l using List.reverseRecOn with
  | nil => simp
  | append_singleton l a ih =>
      rw [firsts_concat]
      split
      · rename_i hmem
        simp only [List.map_append, List.map_cons, List.map_nil, List.mem_append,
          List.mem_singleton, ← ih]
        exact ⟨Or.inl, fun h => h.elim id (fun hk => hk ▸ hmem)⟩
      · simp only [List.map_append, List.mem_append, ih]

theorem firsts_eq_nil_iff (l : List α) : firsts key l = [] ↔ l = [] := by
  refine ⟨fun hnil => ?_, fun hnil => by rw [hnil, firsts_nil]⟩
  refine List.eq_nil_iff_forall_not_mem.mpr (fun a ha => ?_)
  have hmem := (mem_keys_firsts key l (key a)).mpr (List.mem_map_of_mem ha)
  rw [hnil] at hmem
  exact absurd hmem List.not_mem_nil

private theorem nodup_concat_iff {β : Type*} (l : List β) (b : β) :
    (l ++ [b]).Nodup ↔ l.Nodup ∧ b ∉ l :=
  (List.perm_append_singleton b l).nodup_iff.trans (List.nodup_cons.trans And.comm)

theorem firsts_keys_nodup (l : List α) : ((firsts key l).map key).Nodup := by
  induction l using List.reverseRecOn with
  | nil => simp
  | append_singleton l a ih =>
      rw [firsts_concat]
      split
      · exact ih
      · rename_i hmem
        rw [List.map_append, List.map_singleton]
        exact (nodup_concat_iff _ _).mpr ⟨ih, hmem⟩

theorem firsts_sublist (l : List α) : (firsts key l).Sublist l := by
  induction l using List.reverseRecOn with
  | nil => simp
  | append_singleton l a ih =>
      rw [firsts_concat]
      split
      · exact ih.trans (List.sublist_append_left l [a])
      · exact ih.append (List.Sublist.refl [a])

/-- The elements kept are those that come before any other of their key. -/
theorem mem_firsts_iff (l : List α) (a : α) :
    a ∈ firsts key l ↔ ∃ pre post, l = pre ++ a :: post ∧ key a ∉ pre.map key := by
  induction l using List.reverseRecOn with
  | nil =>
      refine iff_of_false List.not_mem_nil ?_
      rintro ⟨pre, post, hsplit, _⟩
      exact absurd hsplit (by simp)
  | append_singleton l b ih =>
      have hkept : a ∈ firsts key l →
          ∃ pre post, l ++ [b] = pre ++ a :: post ∧ key a ∉ pre.map key := by
        intro hmem
        obtain ⟨pre, post, hsplit, hnew⟩ := ih.mp hmem
        exact ⟨pre, post ++ [b], by rw [hsplit]; simp, hnew⟩
      have hold (pre post : List α) (hsplit : l ++ [b] = pre ++ a :: post)
          (hnew : key a ∉ pre.map key) : a ∈ firsts key l ∨ (pre = l ∧ a = b) := by
        rcases List.eq_nil_or_concat' post with rfl | ⟨post, c, rfl⟩
        · obtain ⟨hpre, hlast⟩ := List.append_inj' hsplit rfl
          exact Or.inr ⟨hpre.symm, (List.singleton_inj.mp hlast).symm⟩
        · rw [← List.cons_append, ← List.append_assoc] at hsplit
          obtain ⟨hpre, _⟩ := List.append_inj' hsplit rfl
          exact Or.inl (ih.mpr ⟨pre, post, hpre, hnew⟩)
      rw [firsts_concat]
      split
      · rename_i hmem
        refine ⟨hkept, ?_⟩
        rintro ⟨pre, post, hsplit, hnew⟩
        rcases hold pre post hsplit hnew with hfirst | ⟨rfl, rfl⟩
        · exact hfirst
        · exact absurd ((mem_keys_firsts key pre _).mp hmem) hnew
      · rename_i hmem
        rw [List.mem_append, List.mem_singleton]
        constructor
        · rintro (hfirst | rfl)
          · exact hkept hfirst
          · exact ⟨l, [], rfl, fun hin => hmem ((mem_keys_firsts key l _).mpr hin)⟩
        · rintro ⟨pre, post, hsplit, hnew⟩
          exact (hold pre post hsplit hnew).imp_right And.right

/-- Nothing is dropped from a sequence of distinct keys. -/
theorem firsts_eq_self (l : List α) (h : (l.map key).Nodup) : firsts key l = l := by
  induction l using List.reverseRecOn with
  | nil => rfl
  | append_singleton l a ih =>
      rw [List.map_append, List.map_singleton, nodup_concat_iff _ _] at h
      rw [firsts_concat, ih h.1, if_neg h.2]

/-- An element offered after one of its key may be left out of the sequence. -/
theorem firsts_skip (l r : List α) (c : α) (h : key c ∈ l.map key) :
    firsts key (l ++ c :: r) = firsts key (l ++ r) := by
  have hc : firsts key (l ++ [c]) = firsts key l := by
    rw [firsts_concat, if_pos ((mem_keys_firsts key l _).mpr h)]
  have hsplit (p : List α) : firsts key (p ++ r) = r.foldl
      (fun kept a => if key a ∈ kept.map key then kept else kept ++ [a]) (firsts key p) := by
    simp only [firsts, List.foldl_append]
  rw [List.append_cons l c r, hsplit (l ++ [c]), hc, ← hsplit l]

variable {key}

theorem Ascending.keys_nodup {l : List α} (h : Ascending key l) : (l.map key).Nodup := by
  rw [List.Nodup, List.pairwise_map]
  exact h.imp (fun hab => by omega)

theorem lt_of_mem_takeWhile {l : List α} {k : Nat} {a : α}
    (h : a ∈ l.takeWhile (fun c => key c < k)) : key a < k := by
  simpa using List.mem_takeWhile_imp h

theorem Ascending.le_of_mem_dropWhile {l : List α} (h : Ascending key l) {k : Nat} {a : α}
    (ha : a ∈ l.dropWhile (fun c => key c < k)) : k ≤ key a := by
  induction l with
  | nil => simp at ha
  | cons c l ih =>
      by_cases hc : key c < k
      · rw [List.dropWhile_cons_of_pos (by simpa using hc)] at ha
        exact ih h.of_cons ha
      · rw [List.dropWhile_cons_of_neg (by simpa using hc), List.mem_cons] at ha
        rcases ha with rfl | ha
        · omega
        · have := List.rel_of_pairwise_cons h ha
          omega

/-- In an ascending list a key is present exactly if it is the key of the
element at which a search for it stops. -/
theorem Ascending.mem_keys_iff {l : List α} (h : Ascending key l) (k : Nat) :
    k ∈ l.map key ↔
      ∃ c rest, l.dropWhile (fun c => key c < k) = c :: rest ∧ key c = k := by
  have hsplit := List.takeWhile_append_dropWhile (p := fun c => decide (key c < k)) (l := l)
  constructor
  · intro hmem
    obtain ⟨c, hc, hk⟩ := List.mem_map.mp hmem
    rw [← hsplit, List.mem_append] at hc
    rcases hc with hc | hc
    · have := lt_of_mem_takeWhile hc
      omega
    · cases hdrop : l.dropWhile (fun c => key c < k) with
      | nil => simp [hdrop] at hc
      | cons d rest =>
          refine ⟨d, rest, rfl, ?_⟩
          have hd : k ≤ key d := h.le_of_mem_dropWhile (hdrop ▸ List.mem_cons_self)
          rw [hdrop, List.mem_cons] at hc
          rcases hc with rfl | hc
          · exact hk
          · have hsorted : Ascending key (d :: rest) := by
              rw [← hdrop]
              exact h.sublist (List.dropWhile_sublist _)
            have := List.rel_of_pairwise_cons hsorted hc
            omega
  · rintro ⟨c, rest, hdrop, hk⟩
    refine List.mem_map.mpr ⟨c, ?_, hk⟩
    exact (List.dropWhile_sublist _).subset (hdrop ▸ List.mem_cons_self)

/-- Inserting an absent key where the search for it stops keeps the order. -/
theorem Ascending.insert {l : List α} (h : Ascending key l) {a : α}
    (ha : key a ∉ l.map key) :
    Ascending key (l.takeWhile (fun c => key c < key a) ++
      a :: l.dropWhile (fun c => key c < key a)) := by
  have habove : ∀ c ∈ l.dropWhile (fun c => key c < key a), key a < key c := by
    intro c hc
    have hle := h.le_of_mem_dropWhile hc
    have hne : key c ≠ key a := fun heq =>
      ha (List.mem_map.mpr ⟨c, (List.dropWhile_sublist _).subset hc, heq⟩)
    omega
  refine List.pairwise_append.mpr ⟨h.sublist (List.takeWhile_sublist _), ?_, ?_⟩
  · exact List.pairwise_cons.mpr ⟨habove, h.sublist (List.dropWhile_sublist _)⟩
  · intro b hb c hc
    have hlt := lt_of_mem_takeWhile hb
    rcases List.mem_cons.mp hc with rfl | hc
    · exact hlt
    · have := habove c hc
      omega

theorem insert_perm (p : α → Bool) (l : List α) (a : α) :
    (l.takeWhile p ++ a :: l.dropWhile p).Perm (l ++ [a]) := by
  have h : (a :: (l.takeWhile p ++ l.dropWhile p)).Perm (l ++ [a]) := by
    rw [List.takeWhile_append_dropWhile]
    exact (List.perm_append_singleton a l).symm
  exact List.perm_middle.trans h

/-- The order of an ascending list is fixed by its elements. -/
theorem Ascending.eq_of_perm {l r : List α} (hl : Ascending key l) (hr : Ascending key r)
    (h : l.Perm r) : l = r := by
  refine h.eq_of_pairwise (fun a b _ _ hab hba => ?_) hl hr
  omega

/-- Ascending keys that are exactly the numbers below `n` are `0, …, n - 1`. -/
theorem Ascending.keys_eq_range {l : List α} (h : Ascending key l) (n : Nat)
    (hmem : ∀ k, k ∈ l.map key ↔ k < n) : l.map key = List.range n := by
  have hperm : (l.map key).Perm (List.range n) :=
    (List.perm_ext_iff_of_nodup h.keys_nodup List.nodup_range).mpr
      (fun k => by rw [hmem, List.mem_range])
  have hkeys : (l.map key).Pairwise (· < ·) := List.pairwise_map.mpr h
  exact hperm.eq_of_pairwise (fun a b _ _ hab hba => by omega) hkeys List.pairwise_lt_range

/-- Ascending keys below `n` are at most `n`. -/
theorem Ascending.length_le {l : List α} (h : Ascending key l) {n : Nat}
    (hlt : ∀ a ∈ l, key a < n) : l.length ≤ n := by
  have hsub : (l.map key).toFinset ⊆ Finset.range n := by
    intro k hk
    obtain ⟨a, ha, rfl⟩ := List.mem_map.mp (List.mem_toFinset.mp hk)
    exact Finset.mem_range.mpr (hlt a ha)
  have hcard := Finset.card_le_card hsub
  rwa [List.toFinset_card_of_nodup h.keys_nodup, List.length_map, Finset.card_range] at hcard

/-- As many ascending keys below `n` as there are numbers are all of them. -/
theorem Ascending.keys_eq_range_of_length {l : List α} (h : Ascending key l) (n : Nat)
    (hlt : ∀ a ∈ l, key a < n) (hlen : l.length = n) : l.map key = List.range n := by
  refine h.keys_eq_range n (fun k => ?_)
  have hsub : (l.map key).toFinset ⊆ Finset.range n := by
    intro k hk
    obtain ⟨a, ha, rfl⟩ := List.mem_map.mp (List.mem_toFinset.mp hk)
    exact Finset.mem_range.mpr (hlt a ha)
  have hcard : (l.map key).toFinset.card = n := by
    rw [List.toFinset_card_of_nodup h.keys_nodup, List.length_map, hlen]
  have heq := Finset.eq_of_subset_of_card_le hsub (by rw [hcard, Finset.card_range])
  rw [← List.mem_toFinset, heq, Finset.mem_range]

end SortedKeys
