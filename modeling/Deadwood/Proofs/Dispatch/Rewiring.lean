/-
  What turning conformances around does to the references of a program.

  1. **Removing what a declaration owns** — the reference goes with what is nested in it, and no other
     entry changes.

  2. **`Rewires`** — some references went, and requirements came to refer to implementations.  It is
     the state between two turns, told from the graph at the start: whether a reference is turned,
     and which two declarations it joins, can be read off the start as long as the reference stays.

  3. **The run (`rewires_invertConformances`)** — a pair is joined exactly where a class inherits the
     implementation or a reference claims it, and a reference goes exactly where it was turned and
     its owner is no default implementation.
-/
import Deadwood.Proofs.Dispatch.Connecting
import Deadwood.Proofs.Filing
import Deadwood.Proofs.Ingest.Accounting

namespace Deadwood

open Deadwood.Graph

namespace Graph

variable {g h k : Graph} {c d R X : DeclId} {o q r s : RefId} {S : RefId → Prop}

/-! ## Removing what a declaration owns -/

/-- What lies in the tree of a reference and is nested in nothing is the reference itself. -/
theorem eq_of_mem_referenceTree (hg : g.Owned) (hs : ∀ o, g.ownerOf? s ≠ some (.reference o))
    (hmem : s ∈ g.referenceTree r) : s = r := by
  cases mem_referenceTree.1 hmem with
  | here _ => rfl
  | step _ hz _ => exact absurd ((hg.nested_iff _ _).1 hz) (hs _)

/-- **Where a declaration owns a reference, removing it leaves everything outside its tree alone.** -/
theorem reference?_removeReference (hg : g.Owned) (hr : g.ownerOf? r = some (.declaration d)) :
    (g.removeReference r).reference? s = if s ∈ g.referenceTree r then none else g.reference? s := by
  rw [(pruned_removeReference hg r).reference]
  split
  · rfl
  · rename_i hs
    cases hy : g.reference? s with
    | none => rfl
    | some y =>
        -- had anything nested in `s` gone, `s` would lie in the tree too
        have hkept : y.without (g.referenceTree r) = y.without [] := by
          refine Reference.without_congr fun t ht => iff_of_false (fun hmem => hs ?_) List.not_mem_nil
          have ho : g.ownerOf? t = some (.reference s) :=
            (hg.nested_iff s t).1 (mem_nestedReferences_iff.2 ⟨y, hy, ht⟩)
          cases mem_referenceTree.1 hmem with
          | here _ => rw [hr] at ho; cases ho
          | step hn hz _ =>
              rw [hg.nested_iff, ho] at hz
              cases hz
              exact mem_referenceTree.2 hn
        rw [Option.map_some, hkept, Reference.without_nil]

/-- Nesting is read off the owners, from the inner reference outwards. -/
theorem nests_congr (hg : g.Owned) (hh : h.Owned) (hsame : ∀ z, S z → h.reference? z = g.reference? z)
    (hup : ∀ z o, S z → g.ownerOf? z = some (.reference o) → S o) (hr : S r) :
    h.Nests q r ↔ g.Nests q r := by
  have hgo : ∀ {a b : Graph}, a.Owned → b.Owned → (∀ z, S z → b.reference? z = a.reference? z) →
      (∀ z o, S z → a.ownerOf? z = some (.reference o) → S o) → a.Nests q r → b.Nests q r := by
    intro a b ha hb hab haup hn
    have hlive : ∀ z, S z → z ∈ a.refIds → z ∈ b.refIds := fun z hz hm => by
      rw [mem_refIds, hasReference] at hm ⊢
      rw [hab z hz]
      exact hm
    induction hn with
    | here hm => exact .here (hlive _ hr hm)
    | @step y z _ hz hm ih =>
        have ho := (ha.nested_iff y z).1 hz
        have hob : b.ownerOf? z = some (.reference y) := by
          rw [ownerOf?, hab z hr]
          exact ho
        exact .step (ih (haup z y hr ho)) ((hb.nested_iff y z).2 hob) (hlive z hr hm)
  refine ⟨hgo hh hg (fun z hz => (hsame z hz).symm) fun z o hz ho => hup z o hz ?_,
    hgo hg hh hsame hup⟩
  rw [← ho, ownerOf?, ownerOf?, hsame z hz]

/-! ## Structural references belong to declarations -/

/-- Nothing structural is nested in a reference. -/
def NestsUses (g : Graph) : Prop :=
  ∀ r y o, g.reference? r = some y → y.owner = some (.reference o) → y.isRelated = false

theorem nestsUses_iff : g.NestsUses ↔ ∀ r ∈ g.refIds, ∀ y ∈ g.reference? r,
    y.isRelated = true → ∀ o ∈ y.owner, (o matches .declaration _) = true := by
  constructor
  · intro h r _ y hy hrelated o ho
    cases o with
    | declaration d => rfl
    | reference o => rw [h r y o hy ho] at hrelated; cases hrelated
  · intro h r y o hy ho
    by_contra hrelated
    cases h r (mem_refIds.2 (hasReference_of_eq hy)) y hy (by simpa using hrelated) _ ho

instance : Decidable g.NestsUses := decidable_of_iff _ nestsUses_iff.symm

/-- **Ingestion nests uses only**: a reference that is owned by another one is what a node in the list
of a reference node says, and such a node is never structural. -/
theorem nestsUses_ofDocument (doc : Document) : (ofDocument doc).1.NestsUses := by
  have H := (Document.keeps_accounts doc).run Document.accounts_empty
  intro q y o hy ho
  rw [ofDocument_eq, addMetadata_eq] at hy
  obtain ⟨r, hr, rfl, path, n, hat, hsays⟩ := H.mentioned q y hy
  obtain ⟨y', hy', -, howner⟩ := H.kept r hr path n hat
  rw [show y' = y from Option.some.inj (hy'.symm.trans hy), ho] at howner
  have hrelated : y.isRelated = r.isRelated := congrArg Mention.isRelated hsays
  cases r with
  | outer | under => cases howner
  | inside => exact hrelated

theorem NestsUses.ownerOf?_ne (hf : g.NestsUses) {y : Reference} (hy : g.reference? r = some y)
    (hrelated : y.isRelated = true) : g.ownerOf? r ≠ some (.reference o) := by
  intro ho
  obtain ⟨y', hy', ho⟩ := ownerOf?_eq_some_iff.1 ho
  rw [hy] at hy'
  cases hy'
  rw [hf r y o hy ho] at hrelated
  cases hrelated

/-- Who makes a structural reference owns it. -/
theorem NestsUses.ownerOf? (hf : g.NestsUses) {y : Reference} (hy : g.reference? r = some y)
    (hrelated : y.isRelated = true) (hc : g.referencingDeclaration? r = some c) :
    g.ownerOf? r = some (.declaration c) := by
  rw [referencingDeclaration?, ownerWithin] at hc
  have hne := fun o => hf.ownerOf?_ne hy hrelated (o := o)
  rw [Graph.ownerOf?] at hne ⊢
  split at hc
  · rename_i d hd
    cases hc
    exact hd
  · rename_i o ho
    exact absurd ho (hne o)
  · cases hc

end Graph

namespace Protocols

variable {g h k : Graph} {c d R X : DeclId} {q r s : RefId} {P : Set (DeclId × DeclId)}
  {G : Set RefId}

/-! ## Between two turns -/

/-- `Records g R X`: the requirement `R` owns the structural reference that the pass makes for `X`. -/
def Records (g : Graph) (R X : DeclId) : Prop :=
  ∃ e y x, g.reference? e = some y ∧ y.owner = some (.declaration R) ∧ g.declaration? X = some x ∧
    y.toMention.key = (x.toSymbol.mention true).key

theorem Records.congr (H : SameOutline g h)
    (hsame : ∀ e, g.ownerOf? e = some (.declaration R) → h.reference? e = g.reference? e)
    (E : Records g R X) : Records h R X := by
  obtain ⟨e, y, x, hy, ho, hx, hkey⟩ := E
  obtain ⟨x', hx', hs, -⟩ := H.exists_declaration hx
  refine ⟨e, y, x', ?_, ho, hx', by rw [hs]; exact hkey⟩
  rw [hsame e (ownerOf?_eq_some_iff.2 ⟨y, hy, ho⟩)]
  exact hy

/-- What a requirement records is not added again. -/
theorem Records.refer (hg : g.Owned) (E : Records g R X) : refer g R X true = g := by
  obtain ⟨e, y, x, hy, ho, hx, hkey⟩ := E
  simp only [Protocols.refer, hx]
  exact addUse_of_equal fun hnone => hg.equalReference?_eq_none_iff.1 hnone e y hy ho hkey

theorem records_refer (hR : g.hasDeclaration R = true) (hX : g.hasDeclaration X = true) :
    Records (refer g R X true) R X := by
  obtain ⟨x, hx⟩ := hasDeclaration_iff.1 hX
  have houtline : SameOutline g (refer g R X true) := sameOutline_refer
  obtain ⟨x', hx', hs, -⟩ := houtline.exists_declaration hx
  simp only [Protocols.refer, hx] at hx' ⊢
  cases hnew : g.equalReference? (x.toSymbol.mention true).key (some (.declaration R)) with
  | none =>
      exact ⟨g.nextReference, { x.toSymbol.mention true with owner := some (.declaration R) }, x', by
        rw [reference?_addUse hR hnew, if_pos rfl], rfl, hx', by rw [hs]⟩
  | some e =>
      obtain ⟨y, hy, ho, hkey⟩ := reference?_of_equalReference? hnew
      rw [addUse_of_equal (by rw [hnew]; exact Option.some_ne_none e)] at hx' ⊢
      exact ⟨e, y, x', hy, ho, hx', by rw [hs]; exact hkey⟩

/-- `Stays g G r`: the number `r` was given out in `g`, and no reference of `G` takes it along. -/
def Stays (g : Graph) (G : Set RefId) (r : RefId) : Prop :=
  r.index < g.references.size ∧ ∀ q ∈ G, r ∉ g.referenceTree q

/-- What a reference is nested in stays if the reference does. -/
theorem Stays.outer (hg : g.Owned) {o : RefId} (hs : Stays g G r)
    (ho : g.ownerOf? r = some (.reference o)) : Stays g G o :=
  ⟨Nat.lt_trans (hg.owner_lt r o ho) hs.1, fun q hq hmem =>
    hs.2 q hq (closedUnderNesting_referenceTree hg o r ho hmem)⟩

/-- `Rewires g P G k`: on the way from `g` to `k` the references of `G` went, with what is nested in
them, and for every pair of `P` a requirement came to refer to what implements it.  Nothing else
happened to any reference or to the outline. -/
structure Rewires (g : Graph) (P : Set (DeclId × DeclId)) (G : Set RefId) (k : Graph) : Prop where
  coherent : k.Coherent False
  outline : SameOutline g k
  size : g.references.size ≤ k.references.size
  requirement : ∀ R X, (R, X) ∈ P → g.isProtocolMember R = true
  gone : ∀ q ∈ G, ∀ r ∈ g.referenceTree q, k.reference? r = none
  kept : ∀ r, Stays g G r → k.reference? r = g.reference? r
  /-- What came is what requirements say of their implementations. -/
  fresh : ∀ r y, g.references.size ≤ r.index → k.reference? r = some y →
    ∃ R X x, (R, X) ∈ P ∧ g.declaration? X = some x ∧
      y = { x.toSymbol.mention true with owner := some (.declaration R) }
  records : ∀ R X, (R, X) ∈ P → Records k R X

namespace Rewires

theorem refl (hg : g.Coherent False) : Rewires g ∅ ∅ g where
  coherent := hg
  outline := .refl
  size := Nat.le_refl _
  requirement _ _ hp := hp.elim
  gone _ hq := hq.elim
  kept _ _ := rfl
  fresh _ _ hr hy := absurd (index_lt_of_hasReference (hasReference_of_eq hy)) (Nat.not_lt.2 hr)
  records _ _ hp := hp.elim

/-- **A requirement comes to refer to what implements it.** -/
theorem refer (H : Rewires g P G k) (hR : g.isProtocolMember R = true)
    (hX : g.hasDeclaration X = true) :
    Rewires g (insert (R, X) P) G (Protocols.refer k R X true) := by
  have hRk : k.hasDeclaration R = true := by
    rw [H.outline.hasDeclaration]
    exact live_of_isProtocolMember hR
  have hXk : k.hasDeclaration X = true := by rw [H.outline.hasDeclaration]; exact hX
  obtain ⟨x, hx⟩ := hasDeclaration_iff.1 hX
  obtain ⟨x', hx', hs, -⟩ := H.outline.exists_declaration hx
  have hrefer : Protocols.refer k R X true = k.addUse (x.toSymbol.mention true) R := by
    simp only [Protocols.refer, hx', hs]
  have hadded := records_refer hRk hXk
  rw [hrefer] at hadded ⊢
  have hold : ∀ r, r.index < k.references.size →
      (k.addUse (x.toSymbol.mention true) R).reference? r = k.reference? r := fun r hr =>
    reference?_addUse_of_issued hRk hr
  exact {
    coherent := H.coherent.addUse
    outline := H.outline.trans sameOutline_addUse
    size := Nat.le_trans H.size references_size_addUse
    requirement := by
      rintro R' X' (he | hp)
      · cases he; exact hR
      · exact H.requirement R' X' hp
    gone q hq r hr := by
      have hlt := index_lt_of_hasReference (mem_referenceTree.1 hr).live_right
      rw [hold r (Nat.lt_of_lt_of_le hlt H.size)]
      exact H.gone q hq r hr
    kept r hr := by
      rw [hold r (Nat.lt_of_lt_of_le hr.1 H.size)]
      exact H.kept r hr
    fresh r y hr hy := by
      by_cases hnew : k.equalReference? (x.toSymbol.mention true).key (some (.declaration R)) = none
      · rw [reference?_addUse hRk hnew] at hy
        split at hy
        · cases hy
          exact ⟨R, X, x, Set.mem_insert _ _, hx, rfl⟩
        · obtain ⟨R', X', z, hp, hz⟩ := H.fresh r y hr hy
          exact ⟨R', X', z, Set.mem_insert_of_mem _ hp, hz⟩
      · rw [addUse_of_equal hnew] at hy
        obtain ⟨R', X', z, hp, hz⟩ := H.fresh r y hr hy
        exact ⟨R', X', z, Set.mem_insert_of_mem _ hp, hz⟩
    records := by
      rintro R' X' (he | hp)
      · cases he; exact hadded
      · refine (H.records R' X' hp).congr sameOutline_addUse fun e he => hold e ?_
        exact index_lt_of_hasReference (live_of_ownerOf? he) }

section Removal

variable (H : Rewires g P G k) (hg : g.Owned)
include H hg

/-- What stays is nested in the same references as at the start. -/
theorem mem_referenceTree (hr : Stays g G r) : r ∈ k.referenceTree q ↔ r ∈ g.referenceTree q := by
  rw [Graph.mem_referenceTree, Graph.mem_referenceTree]
  exact nests_congr hg H.coherent.toOwned H.kept (fun _ _ hz ho => hz.outer hg ho) hr

/-- **What an implementation owns goes**: no requirement loses what it records. -/
theorem removeReference (hq : Stays g G q) (ho : g.ownerOf? q = some (.declaration c))
    (hc : g.isProtocolMember c = false) : Rewires g P (insert q G) (k.removeReference q) := by
  have hk := H.coherent.toOwned
  have hok : k.ownerOf? q = some (.declaration c) := by rw [ownerOf?, H.kept q hq]; exact ho
  have hread : ∀ r, (k.removeReference q).reference? r =
      if r ∈ k.referenceTree q then none else k.reference? r := fun r =>
    reference?_removeReference hk hok
  exact {
    coherent := H.coherent.removeReference
    outline := H.outline.trans (pruned_removeReference hk q).sameOutline
    size := by rw [(pruned_removeReference hk q).references_size]; exact H.size
    requirement := H.requirement
    gone p hp r hr := by
      rw [hread]
      have hlt := index_lt_of_hasReference (Graph.mem_referenceTree.1 hr).live_right
      by_cases hstays : Stays g G r
      · obtain rfl : p = q := hp.resolve_right fun hpG => hstays.2 p hpG hr
        rw [if_pos ((H.mem_referenceTree hg hstays).2 hr)]
      · obtain ⟨p', hp', hr'⟩ : ∃ p' ∈ G, r ∈ g.referenceTree p' := by
          by_contra hno
          exact hstays ⟨hlt, fun p' hp' hr' => hno ⟨p', hp', hr'⟩⟩
        rw [H.gone p' hp' r hr', ite_self]
    kept r hr := by
      have hstays : Stays g G r := ⟨hr.1, fun p hp => hr.2 p (Set.mem_insert_of_mem q hp)⟩
      have hout : r ∉ k.referenceTree q := fun hmem =>
        hr.2 q (Set.mem_insert q G) ((H.mem_referenceTree hg hstays).1 hmem)
      rw [hread, if_neg hout]
      exact H.kept r hstays
    fresh r y hr hy := by
      rw [hread] at hy
      split at hy
      · cases hy
      · exact H.fresh r y hr hy
    records R X hp := by
      refine (H.records R X hp).congr (pruned_removeReference hk q).sameOutline fun e he => ?_
      have hne : e ≠ q := by
        rintro rfl
        rw [hok] at he
        cases he
        rw [H.requirement c X hp] at hc
        cases hc
      rw [hread, if_neg (not_mem_referenceTree hk he hne)] }

end Removal

/-! ## One turn -/

/-- What stays is made by the same declaration. -/
theorem referencingDeclaration? (H : Rewires g P G k) (hg : g.Coherent False) (hq : Stays g G q) :
    k.referencingDeclaration? q = g.referencingDeclaration? q :=
  referencingDeclaration?_congr hg.toOwned H.coherent.toOwned
    (fun r hr => by rw [ownerOf?, ownerOf?, H.kept r hr])
    (fun _ _ hr ho => hr.outer hg.toOwned ho) hq

/-- What stays is turned as at the start. -/
theorem turned? (H : Rewires g P G k) (hg : g.Coherent False) (hq : Stays g G q) :
    Protocols.turned? k q = Protocols.turned? g q :=
  turned?_congr H.outline hg.toIndexed H.coherent.toIndexed (by rw [H.kept q hq])
    (H.referencingDeclaration? hg hq)

/-- What came is not turned: requirements are no implementations. -/
theorem turned?_of_fresh (H : Rewires g P G k) (hq : g.references.size ≤ q.index) :
    Protocols.turned? k q = none := by
  refine Option.eq_none_iff_forall_ne_some.2 fun pair ht => ?_
  obtain ⟨y, hy, -, -, hmade, -, hc, -⟩ := turned?_eq_some_iff.1 ht
  obtain ⟨R, X, x, hp, -, rfl⟩ := H.fresh q y hq hy
  rw [Graph.referencingDeclaration?, ownerWithin, hy] at hmade
  obtain rfl : R = pair.2 := Option.some.inj hmade
  rw [H.outline.isProtocolMember, H.requirement _ X hp] at hc
  cases hc

end Rewires

/-- The references that go when they are turned: no default implementation makes them. -/
def taken (g : Graph) : Set RefId :=
  {q | ∃ R X, turned? g q = some (R, X) ∧ isDefaultImplementation g X = false}

theorem mem_taken (ht : turned? g q = some (R, X)) :
    q ∈ taken g ↔ isDefaultImplementation g X = false := by
  constructor
  · rintro ⟨R', X', ht', hno⟩
    rw [ht] at ht'
    cases ht'
    exact hno
  · exact fun hno => ⟨R, X, ht, hno⟩

/-- The references that the pass looks at: the structural ones to what may satisfy a requirement. -/
def Candidate (g : Graph) (q : RefId) : Prop :=
  ∃ y, g.reference? q = some y ∧ y.isRelated = true ∧ y.kind.isWitness = true

namespace Rewires

/-- **One turn.** -/
theorem invertOne (H : Rewires g P G k) (hg : g.Coherent False) (hf : g.NestsUses) (hq : q ∉ G)
    (hrelated : ∀ y, g.reference? q = some y → y.isRelated = true) :
    Rewires g (P ∪ {p | Protocols.turned? g q = some p}) (G ∪ {q' | q' = q ∧ q ∈ taken g})
      (Protocols.invertOne k q) := by
  have hstays : q.index < g.references.size → Stays g G q := fun hlt => ⟨hlt, fun p hp hmem => by
    obtain ⟨y, hy⟩ := hasReference_iff.1 (Graph.mem_referenceTree.1 hmem).live_right
    obtain rfl := eq_of_mem_referenceTree hg.toOwned
      (fun o => hf.ownerOf?_ne hy (hrelated y hy)) hmem
    exact hq hp⟩
  cases ht : Protocols.turned? g q with
  | none =>
      have hnone : Protocols.turned? k q = none := by
        by_cases hlt : q.index < g.references.size
        · rw [H.turned? hg (hstays hlt), ht]
        · exact H.turned?_of_fresh (Nat.le_of_not_lt hlt)
      have htaken : q ∉ taken g := by
        rintro ⟨R, X, htq, -⟩
        rw [ht] at htq
        cases htq
      rw [invertOne_of_none hnone]
      simpa [htaken] using H
  | some pair =>
      obtain ⟨R, X⟩ := pair
      obtain ⟨y, hy, -, hR, hmade, -, hc, hX⟩ := turned?_eq_some_iff.1 ht
      have hq' := hstays (index_lt_of_hasReference (hasReference_of_eq hy))
      have htk : Protocols.turned? k q = some (R, X) := by rw [H.turned? hg hq', ht]
      have added := H.refer hR hX
      have hdefault : isDefaultImplementation (Protocols.refer k R X true) X =
          isDefaultImplementation g X := isDefaultImplementation_congr added.outline
      have hP : P ∪ {p | some (R, X) = some p} = insert (R, X) P := by
        ext p
        simp [eq_comm, or_comm]
      rw [invertOne_eq, htk, hP]
      simp only [hdefault]
      split
      · rename_i hyes
        have htaken : q ∉ taken g := by rw [mem_taken ht, hyes]; simp
        simpa [htaken] using added
      · rename_i hno
        have htaken : q ∈ taken g := (mem_taken ht).2 (by simpa using hno)
        have hG : G ∪ {q' | q' = q ∧ q ∈ taken g} = insert q G := by
          ext q'
          simp [htaken]
        rw [hG]
        exact added.removeReference hg.toOwned hq' (hf.ownerOf? hy (hrelated y hy) hmade) hc

/-! ## The run -/

/-- Pairs come to be joined one after the other. -/
theorem foldl_refer (H : Rewires g P G k) {pairs : List (DeclId × DeclId)}
    (hpairs : ∀ p ∈ pairs, g.isProtocolMember p.1 = true ∧ g.hasDeclaration p.2 = true) :
    Rewires g (P ∪ {p | p ∈ pairs}) G
      (pairs.foldl (fun g pair => Protocols.refer g pair.1 pair.2 true) k) := by
  induction pairs generalizing P k with
  | nil => simpa using H
  | cons pair pairs ih =>
      obtain ⟨hR, hX⟩ := hpairs pair List.mem_cons_self
      have next := ih (H.refer hR hX) fun p hp => hpairs p (List.mem_cons_of_mem pair hp)
      have hP : insert (pair.1, pair.2) P ∪ {p | p ∈ pairs} = P ∪ {p | p ∈ pair :: pairs} := by
        ext p
        simp only [Set.mem_union, Set.mem_insert_iff, Set.mem_ofPred_eq, List.mem_cons]
        tauto
      rw [hP] at next
      exact next

/-- References are turned one after the other. -/
theorem foldl_invertOne (H : Rewires g P G k) (hg : g.Coherent False) (hf : g.NestsUses)
    {ids : List RefId} (hids : ids.Nodup) (hnew : ∀ q ∈ ids, q ∉ G)
    (hrelated : ∀ q ∈ ids, ∀ y, g.reference? q = some y → y.isRelated = true) :
    Rewires g (P ∪ {p | ∃ q ∈ ids, Protocols.turned? g q = some p})
      (G ∪ {q | q ∈ ids ∧ q ∈ taken g}) (ids.foldl Protocols.invertOne k) := by
  induction ids generalizing P G k with
  | nil => simpa using H
  | cons q ids ih =>
      obtain ⟨hq, hids⟩ := List.nodup_cons.1 hids
      have first := H.invertOne hg hf (hnew q List.mem_cons_self) (hrelated q List.mem_cons_self)
      have next := ih first hids (fun r hr => ?_) fun r hr => hrelated r (List.mem_cons_of_mem q hr)
      · have hP : P ∪ {p | Protocols.turned? g q = some p} ∪
            {p | ∃ r ∈ ids, Protocols.turned? g r = some p} =
            P ∪ {p | ∃ r ∈ q :: ids, Protocols.turned? g r = some p} := by
          ext p
          simp only [Set.mem_union, Set.mem_ofPred_eq, List.mem_cons, exists_eq_or_imp, or_assoc]
        have hG : G ∪ {r | r = q ∧ q ∈ taken g} ∪ {r | r ∈ ids ∧ r ∈ taken g} =
            G ∪ {r | r ∈ q :: ids ∧ r ∈ taken g} := by
          ext r
          simp only [Set.mem_union, Set.mem_ofPred_eq, List.mem_cons]
          by_cases hrq : r = q
          · subst hrq; tauto
          · simp [hrq]
        rw [hP, hG] at next
        exact next
      · rintro (hrG | ⟨rfl, -⟩)
        · exact hnew r (List.mem_cons_of_mem q hr) hrG
        · exact hq hr

end Rewires

/-! ## Inherited members -/

theorem mem_insertPair {u v : DeclId × DeclId} {pairs : List (DeclId × DeclId)} :
    v ∈ insertPair g u pairs ↔ v = u ∨ v ∈ pairs := by
  induction pairs with
  | nil => simp [insertPair]
  | cons w pairs ih =>
      rw [insertPair]
      split
      · simp
      · simp only [List.mem_cons, ih]
        tauto

/-- A class that conforms to a protocol satisfies a requirement with an inherited member. -/
theorem mem_inheritedImplementations {pair : DeclId × DeclId} :
    pair ∈ inheritedImplementations g ↔ ∃ p ∈ g.declarationsOfKind .protocolType,
      ∃ c ∈ g.conformingDeclarations p, (g.declaration? c).any (·.kind == .classType) = true ∧
        pair ∈ inheritedBy g (g.membersWhere p fun _ => true) c := by
  have hinsert : ∀ pairs : List (DeclId × DeclId),
      pair ∈ pairs.foldr (insertPair g) [] ↔ pair ∈ pairs := by
    intro pairs
    induction pairs with
    | nil => rfl
    | cons u pairs ih => rw [List.foldr_cons, mem_insertPair, ih, List.mem_cons]
  simp only [inheritedImplementations, hinsert, inheritedFor, List.mem_flatMap, List.mem_filter,
    and_assoc]

theorem mem_inheritedBy {requirements : List DeclId} :
    (R, X) ∈ inheritedBy g requirements c ↔ R ∈ requirements ∧ ∃ x, g.declaration? R = some x ∧
      x.kind.isWitness = true ∧ g.witness? c x.nameText x.kind = none ∧
        (g.superclasses c).findSome? (fun a => g.witness? a x.nameText x.kind) = some X := by
  simp only [inheritedBy, List.mem_filterMap, Option.bind_eq_bind, Option.bind_eq_some_iff,
    bind_guard, Option.ite_none_right_eq_some, Option.pure_def, Option.some.injEq, Prod.mk.injEq,
    Option.isNone_iff_eq_none]
  constructor
  · rintro ⟨R, hR, x, hx, hk, hw, X, hX, rfl, rfl⟩
    exact ⟨hR, x, hx, hk, hw, hX⟩
  · rintro ⟨hR, x, hx, hk, hw, hX⟩
    exact ⟨R, hR, x, hx, hk, hw, X, hX, rfl, rfl⟩

/-- What a class inherits satisfies a requirement that may be satisfied. -/
theorem requirement_of_inherited (hg : g.Coherent False)
    (hp : (R, X) ∈ inheritedImplementations g) : g.isProtocolMember R = true ∧
      g.hasDeclaration X = true ∧ ∃ x, g.declaration? R = some x ∧ x.kind.isWitness = true := by
  obtain ⟨p, hproto, c, -, -, hby⟩ := mem_inheritedImplementations.1 hp
  obtain ⟨hmember, x, hx, hk, -, hfirst⟩ := mem_inheritedBy.1 hby
  obtain ⟨z, hz, hzk⟩ := hg.toIndexed.mem_declarationsOfKinds.1 hproto
  obtain ⟨z', _, hz', hR, -⟩ := mem_membersWhere.1 hmember
  have hparent : g.parentOf? R = some p :=
    (hg.child_iff p R).1 (mem_childrenOf_iff.2 ⟨z', hz', .inl hR⟩)
  refine ⟨?_, ?_, x, hx, hk⟩
  · rw [isProtocolMember, parentDeclaration?, hparent, Option.bind_some, hz]
    simpa using hzk
  · obtain ⟨a, -, ha⟩ := List.exists_of_findSome?_eq_some hfirst
    obtain ⟨_, y, _, _, hy, -⟩ := mem_membersWhere.1 (List.mem_of_mem_head? ha)
    exact hasDeclaration_of_eq hy

/-! ## The pass -/

/-- **What the pass does to the references.** -/
theorem rewires_invertConformances (hg : g.Coherent False) (hf : g.NestsUses) :
    Rewires g {p | p ∈ inheritedImplementations g ∨ ∃ q, Candidate g q ∧ turned? g q = some p}
      {q | Candidate g q ∧ q ∈ taken g} (invertConformances g) := by
  let g₁ := (inheritedImplementations g).foldl (fun g pair => refer g pair.1 pair.2 true) g
  have added : Rewires g (∅ ∪ {p | p ∈ inheritedImplementations g}) ∅ g₁ :=
    (Rewires.refl hg).foldl_refer fun p hp =>
      ⟨(requirement_of_inherited hg hp).1, (requirement_of_inherited hg hp).2.1⟩
  have hsame : ∀ q, q.index < g.references.size → g₁.reference? q = g.reference? q := fun q hq =>
    added.kept q ⟨hq, fun _ hno => hno.elim⟩
  let ids := g₁.sortedReferences (g₁.refIdsWhere fun r => r.isRelated && r.kind.isWitness)
  have hids : ∀ q, q.index < g.references.size → (q ∈ ids ↔ Candidate g q) := by
    intro q hq
    rw [mem_sortedReferences, mem_refIdsWhere, hasReference, hsame q hq]
    simp only [Bool.and_eq_true, Candidate]
    refine and_iff_left_of_imp ?_
    rintro ⟨y, hy, -⟩
    exact hasReference_of_eq hy
  have hlt : ∀ q p, turned? g q = some p → q.index < g.references.size := fun q p ht => by
    obtain ⟨y, hy, -⟩ := turned?_eq_some_iff.1 ht
    exact index_lt_of_hasReference (hasReference_of_eq hy)
  have hrelated : ∀ q ∈ ids, ∀ y, g.reference? q = some y → y.isRelated = true := by
    intro q hq y hy
    obtain ⟨y', hy', hrelated, -⟩ :=
      (hids q (index_lt_of_hasReference (hasReference_of_eq hy))).1 hq
    rw [hy] at hy'
    cases hy'
    exact hrelated
  have run := added.foldl_invertOne hg hf nodup_sortedReferences (fun _ _ hno => hno.elim) hrelated
  have hP : ∅ ∪ {p | p ∈ inheritedImplementations g} ∪ {p | ∃ q ∈ ids, turned? g q = some p} =
      {p | p ∈ inheritedImplementations g ∨ ∃ q, Candidate g q ∧ turned? g q = some p} := by
    ext p
    simp only [Set.empty_union, Set.mem_union, Set.mem_ofPred_eq]
    refine or_congr_right (exists_congr fun q => and_congr_left fun ht => hids q (hlt q p ht))
  have hG : ∅ ∪ {q | q ∈ ids ∧ q ∈ taken g} = {q | Candidate g q ∧ q ∈ taken g} := by
    ext q
    simp only [Set.empty_union, Set.mem_ofPred_eq]
    refine and_congr_left ?_
    rintro ⟨R, X, ht, -⟩
    exact hids q (hlt q _ ht)
  rw [hP, hG] at run
  exact run

end Protocols

end Deadwood
