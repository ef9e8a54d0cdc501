import Mathlib.Tactic
import Mathlib.Logic.Function.Basic

/-!
Hash tables with chaining: a table maps every bucket to a chain of cells, and a
cell carries its key. Chains are changed by inserting or changing the cell of a
key, by removing the cell of a key, and by sweeping a whole chain. In a
well-formed table every cell lies in the bucket of its key and no key occurs
twice, so the table is a finite map; the lemmas below compute that map after
every operation.
-/

namespace ChainedTable

variable {α κ β : Type*} [DecidableEq κ] (key : α → κ)

/-- The first cell of a chain with a given key. -/
def find (k : κ) (chain : List α) : Option α := chain.find? (fun c => key c = k)

/-- Change the first cell with key `k`, or append a new one at the end. -/
def upsert (k : κ) (modify : α → α) (fresh : α) : List α → List α
  | [] => [fresh]
  | c :: rest => if key c = k then modify c :: rest else c :: upsert k modify fresh rest

/-- Change the first cell with key `k`, if there is one. -/
def adjust (k : κ) (modify : α → α) : List α → List α
  | [] => []
  | c :: rest => if key c = k then modify c :: rest else c :: adjust k modify rest

/-- Unlink the first cell with key `k`. -/
def remove (k : κ) (chain : List α) : List α := chain.eraseP (fun c => key c = k)

variable {key}

theorem find_eq_some_iff {chain : List α} (h : (chain.map key).Nodup) (k : κ) (c : α) :
    find key k chain = some c ↔ c ∈ chain ∧ key c = k := by
  induction chain with
  | nil => simp [find]
  | cons d rest ih =>
      rw [List.map_cons, List.nodup_cons] at h
      have ih := ih h.2
      unfold find at ih ⊢
      by_cases hd : key d = k
      · rw [List.find?_cons_of_pos (by simpa using hd), Option.some.injEq]
        constructor
        · rintro rfl
          exact ⟨List.mem_cons_self, hd⟩
        · rintro ⟨hmem, hc⟩
          rcases List.mem_cons.mp hmem with rfl | hmem
          · rfl
          · exact absurd (List.mem_map.mpr ⟨c, hmem, hc.trans hd.symm⟩) h.1
      · rw [List.find?_cons_of_neg (by simpa using hd), ih]
        constructor
        · exact fun ⟨hmem, hc⟩ => ⟨List.mem_cons_of_mem d hmem, hc⟩
        · rintro ⟨hmem, hc⟩
          rcases List.mem_cons.mp hmem with rfl | hmem
          · exact absurd hc hd
          · exact ⟨hmem, hc⟩

theorem find_eq_none_iff (chain : List α) (k : κ) :
    find key k chain = none ↔ k ∉ chain.map key := by
  simp [find, List.find?_eq_none]

/-- A cell at the end of a chain is found only if the chain has none of its key. -/
theorem find_concat (chain : List α) (c : α) (k : κ) :
    find key k (chain ++ [c]) =
      (find key k chain).or (if key c = k then some c else none) := by
  rw [find, List.find?_append]
  by_cases hc : key c = k <;> simp [find, hc]

theorem key_of_find {chain : List α} {k : κ} {c : α} (h : find key k chain = some c) :
    key c = k := by
  simpa using List.find?_some h

theorem mem_of_find {chain : List α} {k : κ} {c : α} (h : find key k chain = some c) :
    c ∈ chain :=
  List.mem_of_find?_eq_some h

/-- A cell that is found stands behind cells of other keys. -/
theorem exists_at_of_find {chain : List α} {k : κ} {c : α} (h : find key k chain = some c) :
    ∃ p s, chain = p ++ c :: s ∧ key c ∉ p.map key := by
  obtain ⟨_, p, s, hchain, hbefore⟩ := List.find?_eq_some_iff_append.mp h
  refine ⟨p, s, hchain, fun hmem => ?_⟩
  obtain ⟨d, hd, hkey⟩ := List.mem_map.mp hmem
  simpa [hkey, key_of_find h] using hbefore d hd

section Upsert

variable {k : κ} {modify : α → α} {fresh : α}

theorem find_upsert_self (hmodify : ∀ c, key (modify c) = key c) (hfresh : key fresh = k)
    (chain : List α) :
    find key k (upsert key k modify fresh chain) =
      some ((find key k chain).elim fresh modify) := by
  induction chain with
  | nil => simp [find, upsert, hfresh]
  | cons c rest ih =>
      unfold find at ih ⊢
      by_cases hc : key c = k
      · simp [upsert, hc, hmodify]
      · simp [upsert, hc, ih]

theorem find_upsert_other (hmodify : ∀ c, key (modify c) = key c) (hfresh : key fresh = k)
    {k' : κ} (hne : k' ≠ k) (chain : List α) :
    find key k' (upsert key k modify fresh chain) = find key k' chain := by
  induction chain with
  | nil => simp [find, upsert, hfresh, hne.symm]
  | cons c rest ih =>
      unfold find at ih ⊢
      by_cases hc : key c = k
      · simp [upsert, hc, hmodify, hne.symm]
      · by_cases hc' : key c = k'
        · simp [upsert, hc', hne]
        · simp [upsert, hc, hc', ih]

theorem keys_upsert (hmodify : ∀ c, key (modify c) = key c) (hfresh : key fresh = k)
    (chain : List α) :
    (upsert key k modify fresh chain).map key =
      if k ∈ chain.map key then chain.map key else chain.map key ++ [k] := by
  induction chain with
  | nil => simp [upsert, hfresh]
  | cons c rest ih =>
      by_cases hc : key c = k
      · simp [upsert, hc, hmodify]
      · simp only [upsert, if_neg hc, List.map_cons, ih, List.mem_cons, Ne.symm hc, false_or]
        split <;> simp

/-- A chain grows by the cell of a key that it did not have. -/
theorem length_upsert (hmodify : ∀ c, key (modify c) = key c) (hfresh : key fresh = k)
    (chain : List α) :
    (upsert key k modify fresh chain).length =
      chain.length + if find key k chain = none then 1 else 0 := by
  have hkeys := congrArg List.length (keys_upsert hmodify hfresh chain)
  have hfound : find key k chain = none ↔ k ∉ chain.map key := find_eq_none_iff chain k
  rw [List.length_map] at hkeys
  rw [hkeys]
  by_cases hk : k ∈ chain.map key
  · rw [if_pos hk, if_neg (fun hnone => hfound.mp hnone hk), List.length_map, Nat.add_zero]
  · rw [if_neg hk, if_pos (hfound.mpr hk), List.length_append, List.length_map,
      List.length_singleton]

theorem nodup_keys_upsert (hmodify : ∀ c, key (modify c) = key c) (hfresh : key fresh = k)
    {chain : List α} (h : (chain.map key).Nodup) :
    ((upsert key k modify fresh chain).map key).Nodup := by
  rw [keys_upsert hmodify hfresh]
  split
  · exact h
  · rename_i hk
    exact (List.perm_append_singleton k _).nodup_iff.mpr (List.nodup_cons.mpr ⟨hk, h⟩)

/-- A key that the chain does not have gets its cell at the end. -/
theorem upsert_of_find_none {chain : List α} (h : find key k chain = none) :
    upsert key k modify fresh chain = chain ++ [fresh] := by
  induction chain with
  | nil => rfl
  | cons c rest ih =>
      rw [find_eq_none_iff, List.map_cons, List.mem_cons, not_or] at h
      rw [upsert, if_neg (Ne.symm h.1), ih ((find_eq_none_iff rest k).mpr h.2)]
      rfl

/-- The cell of a key that the chain has is changed in its place. -/
theorem upsert_of_find_some {chain : List α} (h : find key k chain ≠ none) :
    upsert key k modify fresh chain = adjust key k modify chain := by
  induction chain with
  | nil => exact absurd rfl h
  | cons c rest ih =>
      by_cases hc : key c = k
      · rw [upsert, adjust, if_pos hc, if_pos hc]
      · have hrest : find key k rest ≠ none := by
          intro hnone
          rw [Ne, find_eq_none_iff, List.map_cons, List.mem_cons, not_or, not_and] at h
          exact h (Ne.symm hc) ((find_eq_none_iff rest k).mp hnone)
        rw [upsert, adjust, if_neg hc, if_neg hc, ih hrest]

end Upsert

section Adjust

variable {k : κ} {modify : α → α}

theorem keys_adjust (hmodify : ∀ c, key (modify c) = key c) (chain : List α) :
    (adjust key k modify chain).map key = chain.map key := by
  induction chain with
  | nil => rfl
  | cons c rest ih =>
      unfold adjust
      split
      · simp [hmodify]
      · simp [ih]

theorem find_adjust_self (hmodify : ∀ c, key (modify c) = key c) (chain : List α) :
    find key k (adjust key k modify chain) = (find key k chain).map modify := by
  induction chain with
  | nil => rfl
  | cons c rest ih =>
      unfold find at ih ⊢
      by_cases hc : key c = k
      · simp [adjust, hc, hmodify]
      · simp [adjust, hc, ih]

theorem find_adjust_other (hmodify : ∀ c, key (modify c) = key c) {k' : κ} (hne : k' ≠ k)
    (chain : List α) : find key k' (adjust key k modify chain) = find key k' chain := by
  induction chain with
  | nil => rfl
  | cons c rest ih =>
      unfold find at ih ⊢
      by_cases hc : key c = k
      · simp [adjust, hc, hmodify, hne.symm]
      · simp [adjust, hc, List.find?_cons, ih]

/-- A cell that is not the one of the key stays. -/
theorem mem_adjust_of_find_ne {chain : List α} {c : α} (hc : c ∈ chain)
    (hne : find key k chain ≠ some c) : c ∈ adjust key k modify chain := by
  induction chain with
  | nil => exact absurd hc List.not_mem_nil
  | cons d rest ih =>
      by_cases hd : key d = k
      · rw [find, List.find?_cons_of_pos (by simpa using hd)] at hne
        rw [adjust, if_pos hd]
        have hcd : c ≠ d := fun heq => hne (congrArg some heq.symm)
        exact List.mem_cons_of_mem _ ((List.mem_cons.mp hc).resolve_left hcd)
      · rw [find, List.find?_cons_of_neg (by simpa using hd)] at hne
        rw [adjust, if_neg hd]
        rcases List.mem_cons.mp hc with rfl | hc
        · exact List.mem_cons_self
        · exact List.mem_cons_of_mem _ (ih hc hne)

/-- Changing a cell and viewing the chain in another way go together. -/
theorem map_adjust {α' : Type*} {key' : α' → κ} (f : α → α') (hkey : ∀ c, key' (f c) = key c)
    {modify' : α' → α'} (hmodify : ∀ c, f (modify c) = modify' (f c)) (chain : List α) :
    (adjust key k modify chain).map f = adjust key' k modify' (chain.map f) := by
  induction chain with
  | nil => rfl
  | cons c rest ih =>
      by_cases hc : key c = k
      · rw [adjust, if_pos hc, List.map_cons, List.map_cons, adjust, if_pos ((hkey c).trans hc),
          hmodify]
      · rw [adjust, if_neg hc, List.map_cons, List.map_cons, adjust,
          if_neg (fun hf => hc ((hkey c).symm.trans hf)), ih]

/-- The cell of a key at a known place of the chain is the one changed. -/
theorem adjust_at (p s : List α) (c : α) (hfree : key c ∉ p.map key) :
    adjust key (key c) modify (p ++ c :: s) = p ++ modify c :: s := by
  induction p with
  | nil => simp [adjust]
  | cons d p ih =>
      rw [List.map_cons, List.mem_cons, not_or] at hfree
      simp [adjust, Ne.symm hfree.1, ih hfree.2]

end Adjust

section Remove

theorem keys_remove_sublist (k : κ) (chain : List α) :
    ((remove key k chain).map key).Sublist (chain.map key) :=
  List.eraseP_sublist.map key

/-- A chain shrinks by the cell of a key that it had. -/
theorem length_remove {k : κ} {chain : List α} (h : find key k chain ≠ none) :
    (remove key k chain).length + 1 = chain.length := by
  obtain ⟨c, hc⟩ := Option.ne_none_iff_exists'.mp h
  exact List.length_eraseP_add_one (mem_of_find hc) (by simpa using key_of_find hc)

theorem find_remove_self (k : κ) {chain : List α} (h : (chain.map key).Nodup) :
    find key k (remove key k chain) = none := by
  rw [find_eq_none_iff]
  induction chain with
  | nil => simp [remove]
  | cons c rest ih =>
      rw [List.map_cons, List.nodup_cons] at h
      unfold remove at ih ⊢
      by_cases hc : key c = k
      · rw [List.eraseP_cons_of_pos (by simpa using hc)]
        exact hc ▸ h.1
      · rw [List.eraseP_cons_of_neg (by simpa using hc), List.map_cons, List.mem_cons, not_or]
        exact ⟨Ne.symm hc, ih h.2⟩

theorem find_remove_other {k k' : κ} (hne : k' ≠ k) (chain : List α) :
    find key k' (remove key k chain) = find key k' chain := by
  induction chain with
  | nil => rfl
  | cons c rest ih =>
      unfold find remove at ih ⊢
      by_cases hc : key c = k
      · simp [hc, Ne.symm hne]
      · by_cases hc' : key c = k'
        · simp [hc', hne]
        · simp [hc, hc', ih]

/-- The cell of a key at a known place of the chain is the one removed. -/
theorem remove_at (p s : List α) (c : α) (hfree : key c ∉ p.map key) :
    remove key (key c) (p ++ c :: s) = p ++ s := by
  have hp : ∀ d ∈ p, ¬ decide (key d = key c) = true := by
    intro d hd heq
    exact hfree (List.mem_map.mpr ⟨d, hd, by simpa using heq⟩)
  rw [remove, List.eraseP_append_right _ hp, List.eraseP_cons_of_pos (by simp)]

end Remove

section Sweep

/-- Sweeping a chain of distinct keys acts on the cell of every key by itself. -/
theorem find_filterMap {f : α → Option α} (hf : ∀ c c', f c = some c' → key c' = key c)
    (k : κ) {chain : List α} (h : (chain.map key).Nodup) :
    find key k (chain.filterMap f) = (find key k chain).bind f := by
  induction chain with
  | nil => rfl
  | cons c rest ih =>
      rw [List.map_cons, List.nodup_cons] at h
      have hrest := ih h.2
      have hfree : key c = k → find key k rest = none := by
        intro hc
        rw [find_eq_none_iff, ← hc]
        exact h.1
      cases hfc : f c with
      | none =>
          rw [List.filterMap_cons_none hfc, hrest]
          by_cases hc : key c = k
          · have hnone : rest.find? (fun c => key c = k) = none := hfree hc
            simp [find, hc, hfc, hnone]
          · simp [find, hc]
      | some c' =>
          have hkey := hf c c' hfc
          rw [List.filterMap_cons_some hfc]
          unfold find at hrest ⊢
          by_cases hc : key c = k
          · simp [hc, hkey, hfc]
          · simp [hc, hkey, hrest]

omit [DecidableEq κ] in
theorem keys_filterMap_sublist {f : α → Option α}
    (hf : ∀ c c', f c = some c' → key c' = key c) (chain : List α) :
    ((chain.filterMap f).map key).Sublist (chain.map key) := by
  induction chain with
  | nil => simp
  | cons c rest ih =>
      cases hfc : f c with
      | none =>
          rw [List.filterMap_cons_none hfc, List.map_cons]
          exact ih.cons _
      | some c' =>
          rw [List.filterMap_cons_some hfc, List.map_cons, List.map_cons, hf c c' hfc]
          exact ih.cons_cons _

end Sweep

variable (key) [DecidableEq β] (hash : κ → β)

/-- Every cell lies in the bucket of its key and no key occurs twice. -/
structure WellFormed (t : β → List α) : Prop where
  placed : ∀ b, ∀ c ∈ t b, hash (key c) = b
  unique : ∀ b, ((t b).map key).Nodup

/-- The cell a table holds for a key. -/
def lookup (t : β → List α) (k : κ) : Option α := find key k (t (hash k))

variable {key hash}

omit [DecidableEq κ] [DecidableEq β] in
theorem wellFormed_empty : WellFormed key hash (fun _ => []) :=
  ⟨fun _ _ hc => absurd hc List.not_mem_nil, fun _ => List.nodup_nil⟩

omit [DecidableEq β] in
theorem WellFormed.lookup_eq_some_iff {t : β → List α} (h : WellFormed key hash t)
    (k : κ) (c : α) : lookup key hash t k = some c ↔ c ∈ t (hash k) ∧ key c = k :=
  find_eq_some_iff (h.unique _) k c

omit [DecidableEq β] in
/-- A cell of any chain is the one its key is looked up to. -/
theorem WellFormed.lookup_of_mem {t : β → List α} (h : WellFormed key hash t)
    {b : β} {c : α} (hc : c ∈ t b) : lookup key hash t (key c) = some c :=
  (h.lookup_eq_some_iff _ c).mpr ⟨(h.placed b c hc).symm ▸ hc, rfl⟩

theorem lookup_update (t : β → List α) (b : β) (chain : List α) (k : κ) :
    lookup key hash (Function.update t b chain) k =
      if hash k = b then find key k chain else lookup key hash t k := by
  unfold lookup
  by_cases hb : hash k = b
  · rw [if_pos hb, hb, Function.update_self]
  · rw [if_neg hb, Function.update_of_ne hb]

omit [DecidableEq κ] in
/-- Replacing one chain keeps a table well formed if the new chain does. -/
theorem WellFormed.update {t : β → List α} (h : WellFormed key hash t) (b : β)
    {chain : List α} (hplaced : ∀ c ∈ chain, hash (key c) = b)
    (hunique : (chain.map key).Nodup) :
    WellFormed key hash (Function.update t b chain) := by
  constructor
  · intro b' c hc
    by_cases hb : b' = b
    · subst hb
      rw [Function.update_self] at hc
      exact hplaced c hc
    · rw [Function.update_of_ne hb] at hc
      exact h.placed b' c hc
  · intro b'
    by_cases hb : b' = b
    · subst hb
      rwa [Function.update_self]
    · rw [Function.update_of_ne hb]
      exact h.unique b'

omit [DecidableEq κ] [DecidableEq β] in
/-- Dropping keys from chains keeps a table well formed. -/
theorem WellFormed.of_sublist {t t' : β → List α} (h : WellFormed key hash t)
    (hkeys : ∀ b, ((t' b).map key).Sublist ((t b).map key)) : WellFormed key hash t' := by
  constructor
  · intro b c hc
    obtain ⟨d, hd, hk⟩ := List.mem_map.mp ((hkeys b).subset (List.mem_map_of_mem hc))
    rw [← hk]
    exact h.placed b d hd
  · exact fun b => (hkeys b).nodup (h.unique b)

omit [DecidableEq κ] [DecidableEq β] in
/-- A chain whose keys were already in the bucket, or hash to it, is placed. -/
theorem WellFormed.placed_of_keys {t : β → List α} (h : WellFormed key hash t) (b : β)
    {chain : List α} (hkeys : ∀ k ∈ chain.map key, k ∈ (t b).map key ∨ hash k = b) :
    ∀ c ∈ chain, hash (key c) = b := by
  intro c hc
  rcases hkeys (key c) (List.mem_map_of_mem hc) with hold | hb
  · obtain ⟨d, hd, hk⟩ := List.mem_map.mp hold
    rw [← hk]
    exact h.placed b d hd
  · exact hb

omit [DecidableEq β] in
/-- A table has no more cells than there are keys for them. -/
theorem WellFormed.sum_length_le [Fintype β] {t : β → List α} (h : WellFormed key hash t)
    {keys : Finset κ} (hkeys : ∀ b, ∀ c ∈ t b, key c ∈ keys) : ∑ b, (t b).length ≤ keys.card := by
  have hlength (b : β) : (t b).length = ((t b).map key).toFinset.card := by
    rw [List.toFinset_card_of_nodup (h.unique b), List.length_map]
  have hdisjoint : ∀ b ∈ Finset.univ, ∀ b' ∈ Finset.univ, b ≠ b' →
      Disjoint ((t b).map key).toFinset ((t b').map key).toFinset := by
    intro b _ b' _ hne
    apply Finset.disjoint_left.mpr
    intro k hk hk'
    obtain ⟨c, hc, rfl⟩ := List.mem_map.mp (List.mem_toFinset.mp hk)
    obtain ⟨d, hd, hkey⟩ := List.mem_map.mp (List.mem_toFinset.mp hk')
    apply hne
    rw [← h.placed b c hc, ← h.placed b' d hd, hkey]
  calc ∑ b, (t b).length = ∑ b, ((t b).map key).toFinset.card :=
        Finset.sum_congr rfl fun b _ => hlength b
    _ = (Finset.univ.biUnion fun b => ((t b).map key).toFinset).card :=
        (Finset.card_biUnion hdisjoint).symm
    _ ≤ keys.card := by
        apply Finset.card_le_card
        intro k hk
        obtain ⟨b, _, hmem⟩ := Finset.mem_biUnion.mp hk
        obtain ⟨c, hc, rfl⟩ := List.mem_map.mp (List.mem_toFinset.mp hmem)
        exact hkeys b c hc

end ChainedTable
