/-
  Lists of handles are canonical.

  1. **Order** — one handle comes before another by its key, and by itself where the keys are equal.
     The order is strict, so what a list in this order contains settles the list.

  2. **Program (`sortByKey_eq_sortAndDrop`)** — sorting the keyed handles and dropping each that
     repeats the one before it leaves the same list.  A handle has one key, so its repetitions are
     neighbours once they are sorted, whatever else has the same key.

  3. **Contents** — where every declaration carries an identifier and none is shared, no two have the
     same key.  Then what the declarations say settles the order, and the numbers of their handles play
     no part in it.  Without identifiers they do (`not_sortedSymbols_eq_drafts`).
-/
import Deadwood.Proofs.Renaming.Query
import Deadwood.Proofs.Store.Query
import Mathlib.Data.List.Destutter
import Mathlib.Data.List.Sort

namespace Deadwood

open Std

/-! ## Listing by keys -/

section Keyed

variable {κ ι : Type} [Ord κ] [Ord ι] {key : ι → Option κ} {items items' : List ι} {i j : ι}

/-- The items that have a key, with their keys. -/
def keyedItems (key : ι → Option κ) (items : List ι) : List (Keyed κ ι) :=
  items.filterMap fun i => (key i).map fun k => ⟨k, i⟩

omit [Ord κ] [Ord ι] in
theorem mem_keyedItems {e : Keyed κ ι} :
    e ∈ keyedItems key items ↔ e.item ∈ items ∧ key e.item = some e.key := by
  simp only [keyedItems, List.mem_filterMap, Option.map_eq_some_iff]
  constructor
  · rintro ⟨i, hi, k, hk, rfl⟩
    exact ⟨hi, hk⟩
  · rintro ⟨hi, hk⟩
    exact ⟨e.item, hi, e.key, hk, rfl⟩

/-- The program: sort the keyed items, then drop each that repeats the item before it. -/
def sortAndDrop [DecidableEq ι] (key : ι → Option κ) (items : List ι) : List ι :=
  (((keyedItems key items).mergeSort fun a b => (compare a b).isLE).destutter
    fun a b => a.item ≠ b.item).map (·.item)

/-- Whoever is dropped repeats somebody who stays. -/
theorem exists_mem_destutter' {α : Type} {R : α → α → Prop} [DecidableRel R] {a x : α}
    {xs : List α} (hx : x ∈ a :: xs) : ∃ y ∈ xs.destutter' R a, y = x ∨ ¬ R y x := by
  induction xs generalizing a with
  | nil => exact ⟨a, by simp, .inl (List.mem_singleton.1 hx).symm⟩
  | cons b xs ih =>
      by_cases hab : R a b
      · rw [List.destutter'_cons_pos _ hab]
        rcases List.mem_cons.1 hx with rfl | hx
        · exact ⟨x, List.mem_cons_self, .inl rfl⟩
        · obtain ⟨y, hy, h⟩ := ih hx
          exact ⟨y, List.mem_cons_of_mem a hy, h⟩
      · rw [List.destutter'_cons_neg _ hab]
        rcases List.mem_cons.1 hx with rfl | hx
        · exact ih List.mem_cons_self
        · rcases List.mem_cons.1 hx with rfl | hx
          · exact ⟨a, List.mem_destutter' xs R a, .inr hab⟩
          · exact ih (List.mem_cons_of_mem a hx)

theorem exists_mem_destutter {α : Type} {R : α → α → Prop} [DecidableRel R] {x : α} {xs : List α}
    (hx : x ∈ xs) : ∃ y ∈ xs.destutter R, y = x ∨ ¬ R y x := by
  cases xs with
  | nil => cases hx
  | cons a xs => exact exists_mem_destutter' hx

/-- Where no two neighbours are equal, a sorted list is strictly ascending. -/
theorem ascending_of_isChain_ne {α : Type} [Ord α] [TransOrd α] [LawfulEqOrd α] {xs : List α}
    (hle : xs.Pairwise fun a b => (compare a b).isLE) (hne : xs.IsChain (· ≠ ·)) : Ascending xs := by
  induction xs with
  | nil => exact .nil
  | cons a xs ih =>
      obtain ⟨ha, hxs⟩ := List.pairwise_cons.1 hle
      have hrest := ih hxs hne.of_cons
      refine List.pairwise_cons.2 ⟨fun c hc => ?_, hrest⟩
      cases xs with
      | nil => cases hc
      | cons b xs =>
          have hab : compare a b = .lt := by
            refine (Ordering.isLE_iff_eq_lt_or_eq_eq.1 (ha b List.mem_cons_self)).resolve_right ?_
            exact fun he => (List.isChain_cons_cons.1 hne).1 (LawfulEqCmp.eq_of_compare he)
          rcases List.mem_cons.1 hc with rfl | hc
          · exact hab
          · exact TransCmp.lt_trans hab ((List.pairwise_cons.1 hrest).1 c hc)

theorem pairwise_mergeSort_compare {α : Type} [Ord α] [TransOrd α] {xs : List α} :
    (xs.mergeSort fun a b => (compare a b).isLE).Pairwise fun a b => (compare a b).isLE := by
  refine List.pairwise_mergeSort (fun _ _ _ => TransCmp.isLE_trans) (fun a b => ?_) xs
  have hswap : compare b a = (compare a b).swap := OrientedCmp.eq_swap
  rw [hswap]
  cases compare a b <;> rfl

variable [TransOrd κ] [TransOrd ι] [LawfulEqOrd κ] [LawfulEqOrd ι]

/-- **Sorting and dropping neighbours lists each item once**, in order. -/
theorem sortByKey_eq_sortAndDrop [DecidableEq ι] : sortByKey key items = sortAndDrop key items := by
  let sorted := (keyedItems key items).mergeSort fun a b => (compare a b).isLE
  let kept := sorted.destutter fun a b => a.item ≠ b.item
  have hsub : kept.Sublist sorted := List.destutter_sublist _ _
  have hperm : sorted.Perm (keyedItems key items) := List.mergeSort_perm _ _
  have hmem : ∀ e, e ∈ kept ↔ e ∈ keyedItems key items := by
    intro e
    refine ⟨fun he => hperm.subset (hsub.subset he), fun he => ?_⟩
    obtain ⟨e', he', h⟩ := exists_mem_destutter (R := fun a b : Keyed κ ι => a.item ≠ b.item)
      (hperm.symm.subset he)
    have hitem : e'.item = e.item := h.elim (congrArg _) not_not.1
    -- an item has one key
    have hkey : key e'.item = some e'.key := (mem_keyedItems.1 (hperm.subset (hsub.subset he'))).2
    rw [hitem, (mem_keyedItems.1 he).2, Option.some.injEq] at hkey
    have hsame : e' = e := by
      cases e
      cases e'
      simp_all
    exact hsame ▸ he'
  have hascending : Ascending kept := by
    refine ascending_of_isChain_ne (pairwise_mergeSort_compare.sublist hsub) ?_
    exact (List.isChain_destutter _ _).imp fun _ _ hne he => hne (congrArg _ he)
  have hset : SortedSet.ofList (keyedItems key items) = ⟨kept, hascending⟩ :=
    SortedSet.eq_of_mem_iff fun e => SortedSet.mem_ofList.trans (hmem e).symm
  show (SortedSet.ofList (keyedItems key items)).toList.map (·.item) = kept.map (·.item)
  rw [hset]

theorem Precedes.asymm (hij : Precedes key i j) : ¬ Precedes key j i := by
  rintro ⟨b', a', hb', ha', hji⟩
  obtain ⟨a, b, ha, hb, hij⟩ := hij
  rw [ha] at ha'
  rw [hb] at hb'
  cases ha'
  cases hb'
  rcases hij with hlt | ⟨rfl, hlt⟩ <;> rcases hji with hlt' | ⟨he, hlt'⟩
  · exact absurd (TransCmp.lt_trans hlt hlt') (by simp)
  · subst he
    simp at hlt
  · simp at hlt'
  · exact absurd (TransCmp.lt_trans hlt hlt') (by simp)

/-- How the items that have a key are put in order. -/
structure ListsByKey [DecidableEq ι] (key : ι → Option κ) (list : List ι → List ι) : Prop where
  /-- An item that is given and has a key stands in the list once, and nothing else does. -/
  once : ∀ items i, (list items).count i = if i ∈ items ∧ (key i).isSome then 1 else 0
  ascending : ∀ items, (list items).Pairwise (Precedes key)
  /-- Repetitions and items without a key do not matter, nor in which order the items are given. -/
  canonical : ∀ items items', (∀ i, (key i).isSome → (i ∈ items ↔ i ∈ items')) →
    list items = list items'
  /-- It is enough to drop an item that repeats its neighbour. -/
  neighbours : ∀ items, list items = sortAndDrop key items

theorem listsByKey_sortByKey [DecidableEq ι] : ListsByKey key (sortByKey key) where
  once items i := by
    split
    · rename_i h
      exact List.count_eq_one_of_mem nodup_sortByKey (mem_sortByKey.2 h)
    · rename_i h
      exact List.count_eq_zero.2 fun hi => h (mem_sortByKey.1 hi)
  ascending _ := pairwise_precedes_sortByKey
  canonical items items' h := by
    have : Std.Irrefl (Precedes key) := ⟨fun i h => h.ne rfl⟩
    have : Std.Antisymm (Precedes key) := ⟨fun i j hij hji => absurd hji hij.asymm⟩
    refine List.Pairwise.eq_of_mem_iff pairwise_precedes_sortByKey pairwise_precedes_sortByKey
      fun i => ?_
    rw [mem_sortByKey, mem_sortByKey]
    exact and_congr_left fun hk => h i hk
  neighbours _ := sortByKey_eq_sortAndDrop

end Keyed

namespace Graph

variable {g h : Graph} {ids ids' : List DeclId}

/-! ## Contents -/

/-- What the source says of a live declaration. -/
def symbol? (g : Graph) (d : DeclId) : Option Symbol := (g.declaration? d).map (·.toSymbol)

/-- What the source says of the listed declarations, in order. -/
def sortedSymbols (g : Graph) (ids : List DeclId) : List Symbol :=
  (g.sortedDeclarations ids).filterMap g.symbol?

theorem pairwise_sortedSymbols (hu : g.Unambiguous) (hi : g.Identified) :
    (g.sortedSymbols ids).Pairwise fun s t => compare s.key t.key = .lt := by
  have hinj : ∀ c ∈ ids, ∀ d ∈ ids, ∀ k, (g.declaration? c).map (·.toSymbol.key) = some k →
      (g.declaration? d).map (·.toSymbol.key) = some k → c = d := by
    intro c _ d _ k hc hd
    obtain ⟨x, hx, rfl⟩ := Option.map_eq_some_iff.1 hc
    obtain ⟨y, hy, hk⟩ := Option.map_eq_some_iff.1 hd
    exact hu.eq_of_key hi hx hy hk.symm
  refine List.pairwise_filterMap.2 ((pairwise_sortByKey hinj).imp ?_)
  rintro c d ⟨a, b, ha, hb, hlt⟩ s hs t ht
  obtain ⟨x, hx, rfl⟩ := Option.map_eq_some_iff.1 ha
  obtain ⟨y, hy, rfl⟩ := Option.map_eq_some_iff.1 hb
  rw [symbol?, hx] at hs
  rw [symbol?, hy] at ht
  cases hs
  cases ht
  exact hlt

theorem mem_sortedSymbols {s : Symbol} :
    s ∈ g.sortedSymbols ids ↔ ∃ d ∈ ids, g.symbol? d = some s := by
  simp only [sortedSymbols, List.mem_filterMap, mem_sortedDeclarations]
  constructor
  · rintro ⟨d, ⟨hd, -⟩, hs⟩
    exact ⟨d, hd, hs⟩
  · rintro ⟨d, hd, hs⟩
    obtain ⟨x, hx, -⟩ := Option.map_eq_some_iff.1 hs
    exact ⟨d, ⟨hd, hasDeclaration_of_eq hx⟩, hs⟩

/-- **What the declarations say settles their order**, in whatever graphs they are and under whatever
handles. -/
theorem sortedSymbols_eq (hu : g.Unambiguous) (hi : g.Identified) (hu' : h.Unambiguous)
    (hi' : h.Identified)
    (hsame : ∀ s, (∃ d ∈ ids, g.symbol? d = some s) ↔ ∃ d ∈ ids', h.symbol? d = some s) :
    g.sortedSymbols ids = h.sortedSymbols ids' := by
  have : Std.Irrefl fun s t : Symbol => compare s.key t.key = .lt := ⟨fun s => by simp⟩
  have : Std.Antisymm fun s t : Symbol => compare s.key t.key = .lt :=
    ⟨fun s t hst hts => absurd (TransCmp.lt_trans hst hts) (by simp)⟩
  refine List.Pairwise.eq_of_mem_iff (pairwise_sortedSymbols hu hi) (pairwise_sortedSymbols hu' hi')
    fun s => ?_
  rw [mem_sortedSymbols, mem_sortedSymbols, hsame]

/-- Handles are listed in an order that does not show how the list came about. -/
structure ListsInOrder (g : Graph) : Prop where
  declarations : ListsByKey (fun d => (g.declaration? d).map (·.toSymbol.key)) g.sortedDeclarations
  references : ListsByKey (fun r => (g.reference? r).map (·.toMention.key)) g.sortedReferences
  /-- Where every declaration carries an identifier and none is shared, declarations that say the same
  are listed in the same order. -/
  contents : ∀ (h : Graph) (ids ids' : List DeclId), g.Unambiguous → g.Identified →
    h.Unambiguous → h.Identified →
    (∀ s, (∃ d ∈ ids, g.symbol? d = some s) ↔ ∃ d ∈ ids', h.symbol? d = some s) →
    g.sortedSymbols ids = h.sortedSymbols ids'

/-- **Lists of handles are canonical**, whatever the graph and the list. -/
theorem listsInOrder (g : Graph) : g.ListsInOrder where
  declarations := listsByKey_sortByKey
  references := listsByKey_sortByKey
  contents _ _ _ hu hi hu' hi' := sortedSymbols_eq hu hi hu' hi'

/-- Declarations of the same name; the spelling of a file does not count. -/
def namesakes : List Symbol :=
  let symbol (kind : Kind) (usr file : String) : Symbol :=
    { kind, usrs := .singleton usr, name := some "f", location := ⟨⟨file⟩, 1, 1⟩ }
  [ symbol .classType "B" "a/b.swift", symbol .freeFunction "C" "a//b.swift",
    symbol .classType "A" "a/b.swift", symbol .classType "D" "a-b.swift" ]

/-- The declarations in order, of which one is gone again, and two references with the same key. -/
def page (symbols : List Symbol) (gone : DeclId) : Graph :=
  let call : Mention := { kind := .classType, usr := "A", location := ⟨⟨"a/b.swift"⟩, 2, 1⟩ }
  (symbols.map (Operation.addDeclaration · none) ++
    [ Operation.addReference call (some (.declaration ⟨1⟩)),
      Operation.addReference call (some (.declaration ⟨2⟩)),
      Operation.removeDeclaration gone ]).foldl Operation.apply ∅

theorem listsInOrder_page :
    (page namesakes ⟨3⟩).sortedDeclarations [⟨1⟩, ⟨0⟩, ⟨3⟩, ⟨2⟩, ⟨0⟩, ⟨9⟩] = [⟨2⟩, ⟨0⟩, ⟨1⟩] ∧
    (page namesakes ⟨3⟩).sortedReferences [⟨1⟩, ⟨7⟩, ⟨0⟩, ⟨1⟩] = [⟨0⟩, ⟨1⟩] ∧
    (page namesakes ⟨3⟩).sortedDeclarations [⟨1⟩, ⟨0⟩, ⟨3⟩, ⟨2⟩, ⟨0⟩, ⟨9⟩] =
      (page namesakes ⟨3⟩).sortedDeclarations [⟨0⟩, ⟨1⟩, ⟨2⟩] ∧
    (page namesakes.reverse ⟨0⟩).sortedDeclarations [⟨3⟩, ⟨2⟩, ⟨1⟩] = [⟨1⟩, ⟨3⟩, ⟨2⟩] ∧
    (page namesakes ⟨3⟩).sortedSymbols [⟨0⟩, ⟨1⟩, ⟨2⟩] =
      (page namesakes.reverse ⟨0⟩).sortedSymbols [⟨3⟩, ⟨2⟩, ⟨1⟩] := by
  have H : (page namesakes ⟨3⟩).ListsInOrder := listsInOrder _
  refine ⟨by decide +kernel, by decide +kernel, ?_, by decide +kernel, ?_⟩
  · refine H.declarations.canonical _ _ fun d hd => ?_
    have hgone : d ≠ ⟨3⟩ := by
      rintro rfl
      revert hd
      decide +kernel
    have hnever : d ≠ ⟨9⟩ := by
      rintro rfl
      revert hd
      decide +kernel
    simp only [List.mem_cons, List.not_mem_nil, hgone, hnever]
    tauto
  · have hsame : [⟨0⟩, ⟨1⟩, ⟨2⟩].filterMap (page namesakes ⟨3⟩).symbol? =
        [⟨3⟩, ⟨2⟩, ⟨1⟩].filterMap (page namesakes.reverse ⟨0⟩).symbol? := by decide +kernel
    refine H.contents _ _ _ (by decide +kernel) (by decide +kernel) (by decide +kernel)
      (by decide +kernel) fun s => ?_
    rw [← List.mem_filterMap, ← List.mem_filterMap, hsame]

/-- Two types at one place that carry no identifier and differ in a modifier. -/
def drafts (first second : String) : Graph :=
  let symbol (modifier : String) : Symbol :=
    { kind := .structType, usrs := ∅, location := ⟨⟨"a.swift"⟩, 1, 1⟩
      modifiers := .singleton modifier }
  [ Operation.addDeclaration (symbol first) none,
    Operation.addDeclaration (symbol second) none ].foldl Operation.apply ∅

/-- No identifier is shared where there is none.  Yet the two are listed as they were added. -/
theorem not_sortedSymbols_eq_drafts :
    (drafts "final" "static").Unambiguous ∧ (drafts "static" "final").Unambiguous ∧
      (∀ s, (∃ d ∈ [⟨0⟩, ⟨1⟩], (drafts "final" "static").symbol? d = some s) ↔
        ∃ d ∈ [⟨0⟩, ⟨1⟩], (drafts "static" "final").symbol? d = some s) ∧
      (drafts "final" "static").sortedSymbols [⟨0⟩, ⟨1⟩] ≠
        (drafts "static" "final").sortedSymbols [⟨0⟩, ⟨1⟩] := by
  have hsame : [⟨0⟩, ⟨1⟩].filterMap (drafts "final" "static").symbol? =
      ([⟨0⟩, ⟨1⟩].filterMap (drafts "static" "final").symbol?).reverse := by decide +kernel
  refine ⟨by decide +kernel, by decide +kernel, fun s => ?_, by decide +kernel⟩
  rw [← List.mem_filterMap, ← List.mem_filterMap, hsame, List.mem_reverse]

end Graph

end Deadwood
