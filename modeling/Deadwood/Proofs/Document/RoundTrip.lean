/-
  What is written of a document is read again.

  1. **Values** — texts, numbers, the names of cases, sets and maps are read as what was written.

  2. **Nodes (`ReferenceNode.Bounded.ofJson?_toJson`, `DeclarationNode.Bounded.ofJson?_toJson`)** — by
     induction on the nesting.  Lines and columns have to fit into 32 bits (`Bounded`), as the format
     has them.

  3. **Documents** — a document comes back without the comments of its files, and with everything else.
     Whatever is read fits the format (`Document.bounded_of_ofJson?`), so writing what was read and
     reading it again changes nothing more.
-/
import Deadwood.Proofs.Document.Reading
import Deadwood.Proofs.SortedSet

namespace Deadwood

open Json

/-! ## Values -/

section Values

variable {α : Type}

/-- A label is the label of one thing only. -/
theorem find?_label {label : α → String} {all : List α} (hall : (all.map label).Nodup) {x : α}
    (hx : x ∈ all) : all.find? (fun y => label y == label x) = some x := by
  induction all with
  | nil => cases hx
  | cons y ys ih =>
      obtain ⟨hy, hys⟩ := List.nodup_cons.1 hall
      rcases List.mem_cons.1 hx with rfl | hx
      · simp
      · have hne : label y ≠ label x := fun he => hy (he ▸ List.mem_map_of_mem hx)
        simp [hne, ih hys hx]

theorem Kind.ofLabel?_label (k : Kind) : Kind.ofLabel? k.label = some k :=
  find?_label (by decide +kernel) (by cases k <;> decide)

theorem Role.ofLabel?_label (r : Role) : Role.ofLabel? r.label = some r :=
  find?_label (by decide +kernel) (by cases r <;> decide)

theorem Tier.ofLabel?_label (t : Tier) : Tier.ofLabel? t.label = some t :=
  find?_label (by decide +kernel) (by cases t <;> decide)

theorem AssetSource.ofLabel?_label (s : AssetSource) : AssetSource.ofLabel? s.label = some s :=
  find?_label (by decide +kernel) (by cases s <;> decide)

namespace Json

theorem case?_str {ofLabel? : String → Option α} {text : String} :
    case? ofLabel? (.str text) = ofLabel? text := rfl

theorem natural?_nat {n : Nat} (hn : n ≤ maxNatural) : natural? (nat n) = some n := by
  simp [natural?, nat, hn]

theorem le_of_natural? {j : Json} {n : Nat} (h : natural? j = some n) : n ≤ maxNatural := by
  unfold natural? at h
  split at h
  · split at h
    · rename_i hbound
      cases h
      simp only [Bool.and_eq_true, decide_eq_true_eq] at hbound
      omega
    · cases h
  · cases h

theorem nullable?_ofOption {write : α → Json} {read : Json → Option α} {o : Option α}
    (hread : ∀ x, read (write x) = some x) (hnull : ∀ x, write x ≠ .null) :
    nullable? read (ofOption write o) = some o := by
  cases o with
  | none => rfl
  | some x =>
      show nullable? read (write x) = some (some x)
      unfold nullable?
      split
      · rename_i he
        exact absurd he (hnull x)
      · rw [hread]
        rfl

theorem mapM_map {write : α → Json} {read : Json → Option α} {f : α → α} {xs : List α}
    (h : ∀ x ∈ xs, read (write x) = some (f x)) : (xs.map write).mapM read = some (xs.map f) := by
  induction xs with
  | nil => rfl
  | cons x xs ih =>
      rw [List.map_cons, List.mapM_cons, h x List.mem_cons_self,
        ih fun y hy => h y (List.mem_cons_of_mem x hy)]
      rfl

theorem list?_map {write : α → Json} {read : Json → Option α} {xs : List α}
    (h : ∀ x ∈ xs, read (write x) = some x) : list? read (.arr (xs.map write)) = some xs := by
  have hlist := mapM_map (f := id) h
  rwa [List.map_id] at hlist

theorem texts?_texts (texts : List String) : texts? (Json.texts texts) = some texts :=
  list?_map fun _ _ => rfl

/-- Each entry is read into the map that was read before it. -/
theorem foldlM_exports (es : List (String × List String)) (m : SortedMap String (List String)) :
    (es.map fun e => (e.1, texts e.2)).foldlM (fun m f => (texts? f.2).map (m.insert f.1 ·)) m =
      some (es.foldl (fun m e => m.insert e.1 e.2) m) := by
  induction es generalizing m with
  | nil => rfl
  | cons e es ih =>
      rw [List.map_cons, List.foldlM_cons, texts?_texts]
      exact ih _

theorem exportsOfJson?_obj (m : SortedMap String (List String)) :
    exportsOfJson? (.obj (m.entries.map fun e => (e.1, texts e.2))) = some m := by
  rw [exportsOfJson?, foldlM_exports, SortedMap.foldl_insert]

end Json

end Values

/-! ## Nodes -/

/-- The lines and columns of a reference fit the format. -/
inductive ReferenceNode.Bounded : ReferenceNode → Prop where
  | intro {n : ReferenceNode} (line : n.line ≤ maxNatural) (column : n.column ≤ maxNatural)
      (references : ∀ r ∈ n.references, r.Bounded) : n.Bounded

/-- The lines and columns of a declaration fit the format. -/
inductive DeclarationNode.Bounded : DeclarationNode → Prop where
  | intro {n : DeclarationNode} (line : n.line ≤ maxNatural) (column : n.column ≤ maxNatural)
      (declarations : ∀ d ∈ n.declarations, d.Bounded)
      (unusedParameters : ∀ d ∈ n.unusedParameters, d.Bounded)
      (references : ∀ r ∈ n.references, r.Bounded) (related : ∀ r ∈ n.related, r.Bounded) : n.Bounded

theorem ReferenceNode.toJsonAll_eq_map (ns : List ReferenceNode) :
    toJsonAll ns = ns.map toJson := by
  induction ns with
  | nil => rw [toJsonAll]; rfl
  | cons n ns ih => rw [toJsonAll, ih, List.map_cons]

theorem DeclarationNode.toJsonAll_eq_map (ns : List DeclarationNode) :
    toJsonAll ns = ns.map toJson := by
  induction ns with
  | nil => rw [toJsonAll]; rfl
  | cons n ns ih => rw [toJsonAll, ih, List.map_cons]

/-- **A reference is read as it was written.** -/
theorem ReferenceNode.Bounded.ofJson?_toJson {n : ReferenceNode} (h : n.Bounded) :
    ofJson? n.toJson = some n := by
  induction h with
  | @intro n line column _ ih =>
      obtain ⟨kind, usr, name, file, l, c, role, references⟩ := n
      have hnested : list? ofJson? (.arr (references.map toJson)) = some references := list?_map ih
      have hname : nullable? str? (ofOption .str name) = some name :=
        nullable?_ofOption (fun _ => rfl) nofun
      have hfile : nullable? path? (ofOption (fun p => .str p.text) file) = some file :=
        nullable?_ofOption (fun _ => rfl) nofun
      rw [toJson, ofJson?_obj, toJsonAll_eq_map]
      simp only [Option.bind_some, ofNamed?, Json.optional, required, valuesOf_cons, valuesOf_nil,
        String.reduceEq, if_true, if_false, hnested, ofFields?, case?_str, Kind.ofLabel?_label,
        Role.ofLabel?_label, hname, hfile, natural?_nat line, natural?_nat column]
      rfl

theorem ReferenceNode.list?_toJsonAll {ns : List ReferenceNode} (h : ∀ n ∈ ns, n.Bounded) :
    list? ofJson? (.arr (toJsonAll ns)) = some ns := by
  rw [toJsonAll_eq_map]
  exact list?_map fun n hn => (h n hn).ofJson?_toJson

/-- **A declaration is read as it was written**, with all that is nested in it. -/
theorem DeclarationNode.Bounded.ofJson?_toJson {n : DeclarationNode} (h : n.Bounded) :
    ofJson? n.toJson = some n := by
  induction h with
  | @intro n line column _ _ hreferences hrelated ihd ihp =>
      obtain ⟨kind, usrs, name, file, l, c, tier, explicit, attributes, modifiers, comments, implicit,
        objc, declarations, parameters, references, related⟩ := n
      have hdeclarations : list? ofJson? (.arr (declarations.map toJson)) = some declarations :=
        list?_map ihd
      have hparameters : list? ofJson? (.arr (parameters.map toJson)) = some parameters := list?_map ihp
      have hname : nullable? str? (ofOption .str name) = some name :=
        nullable?_ofOption (fun _ => rfl) nofun
      have hfile : nullable? path? (ofOption (fun p => .str p.text) file) = some file :=
        nullable?_ofOption (fun _ => rfl) nofun
      have htier : nullable? (case? Tier.ofLabel?) (ofOption (fun t => .str t.label) tier) =
          some tier := nullable?_ofOption Tier.ofLabel?_label nofun
      have hexplicit : nullable? bool? (ofOption .bool explicit) = some explicit :=
        nullable?_ofOption (fun _ => rfl) nofun
      rw [toJson, ofJson?_obj, toJsonAll_eq_map, toJsonAll_eq_map]
      simp only [Option.bind_some, ofNamed?, Json.optional, required, valuesOf_cons, valuesOf_nil,
        String.reduceEq, if_true, if_false, hdeclarations, hparameters, ofFields?, case?_str,
        Kind.ofLabel?_label, hname, hfile, natural?_nat line, natural?_nat column, htier, hexplicit,
        texts?_texts,
        ReferenceNode.list?_toJsonAll hreferences, ReferenceNode.list?_toJsonAll hrelated]
      rfl

/-! ## Files, fragments and documents -/

theorem ImportStatement.ofJson?_toJson {i : ImportStatement} (line : i.line ≤ maxNatural)
    (column : i.column ≤ maxNatural) : ofJson? i.toJson = some i := by
  rw [toJson, ofJson?, record?_obj]
  simp only [Json.optional, required, valuesOf_cons, valuesOf_nil, String.reduceEq, if_true, if_false,
    natural?_nat line, natural?_nat column]
  rfl

theorem AssetReference.ofJson?_toJson (a : AssetReference) : ofJson? a.toJson = some a := by
  rw [toJson, ofJson?, record?_obj]
  simp only [required, valuesOf_cons, valuesOf_nil, String.reduceEq, if_true, if_false, case?_str,
    AssetSource.ofLabel?_label]
  rfl

namespace FileNode

/-- The lines and columns of the imports fit the format. -/
def Bounded (f : FileNode) : Prop :=
  ∀ i ∈ f.imports, i.line ≤ maxNatural ∧ i.column ≤ maxNatural

/-- The file without its comments and what they ask for. -/
def withoutComments (f : FileNode) : FileNode := { f with comments := [], directives := [] }

theorem Bounded.ofJson?_toJson {f : FileNode} (h : f.Bounded) :
    ofJson? f.toJson = some f.withoutComments := by
  have himports : list? ImportStatement.ofJson? (.arr (f.imports.map (·.toJson))) = some f.imports :=
    list?_map fun i hi => ImportStatement.ofJson?_toJson (h i hi).1 (h i hi).2
  rw [toJson, ofJson?, record?_obj]
  simp only [Json.optional, required, valuesOf_cons, valuesOf_nil, String.reduceEq, if_true, if_false,
    texts?_texts, himports]
  show some _ = some _
  rw [SortedSet.ofList_toList]
  rfl

end FileNode

namespace Fragment

/-- The lines and columns of a fragment fit the format. -/
structure Bounded (f : Fragment) : Prop where
  file : f.file.Bounded
  declarations : ∀ d ∈ f.declarations, d.Bounded
  references : ∀ r ∈ f.references, r.Bounded

/-- The fragment without the comments of its file. -/
def withoutComments (f : Fragment) : Fragment := { f with file := f.file.withoutComments }

theorem Bounded.ofJson?_toJson {f : Fragment} (h : f.Bounded) :
    ofJson? f.toJson = some f.withoutComments := by
  have hdeclarations : list? DeclarationNode.ofJson? (.arr (DeclarationNode.toJsonAll f.declarations)) =
      some f.declarations := by
    rw [DeclarationNode.toJsonAll_eq_map]
    exact list?_map fun d hd => (h.declarations d hd).ofJson?_toJson
  rw [toJson, ofJson?, record?_obj]
  simp only [Json.optional, required, valuesOf_cons, valuesOf_nil, String.reduceEq, if_true, if_false,
    h.file.ofJson?_toJson, hdeclarations, ReferenceNode.list?_toJsonAll h.references]
  rfl

end Fragment

namespace Document

/-- All lines and columns of a document fit the format. -/
def Bounded (d : Document) : Prop := ∀ f ∈ d.fragments, f.Bounded

/-- The document without the comments of its files. -/
def withoutComments (d : Document) : Document :=
  { d with fragments := d.fragments.map (·.withoutComments) }

/-- **What is written is read again**, but for the comments of the files. -/
theorem Bounded.ofJson?_toJson {d : Document} (h : d.Bounded) :
    ofJson? d.toJson = some d.withoutComments := by
  have hfragments : list? Fragment.ofJson? (.arr (d.fragments.map (·.toJson))) =
      some (d.fragments.map (·.withoutComments)) := mapM_map fun f hf => (h f hf).ofJson?_toJson
  have hassets : list? AssetReference.ofJson? (.arr (d.assetReferences.map (·.toJson))) =
      some d.assetReferences := list?_map fun a _ => a.ofJson?_toJson
  rw [toJson, ofJson?, record?_obj]
  simp only [Json.optional, valuesOf_cons, valuesOf_nil, String.reduceEq, if_true, if_false, hfragments,
    exportsOfJson?_obj, hassets]
  rfl

/-- The comments of the files are not written. -/
theorem toJson_withoutComments (d : Document) : d.withoutComments.toJson = d.toJson := by
  rw [toJson, toJson, withoutComments, List.map_map]
  rfl

end Document

/-! ## What is read -/

namespace Json

variable {α : Type} {fields : List (String × Json)} {name : String} {default x : α}
  {read : Json → Option α} {j : Json}

theorem exists_of_required (h : required fields name read = some x) :
    ∃ j, (name, j) ∈ fields ∧ read j = some x := by
  unfold required at h
  split at h
  · rename_i j hvalues
    exact ⟨j, mem_valuesOf.1 (hvalues ▸ List.mem_cons_self), h⟩
  · cases h

theorem exists_of_optional (h : Json.optional fields name default read = some x) :
    x = default ∨ ∃ j, (name, j) ∈ fields ∧ read j = some x := by
  unfold Json.optional at h
  split at h
  · exact .inl (Option.some.inj h).symm
  · rename_i j hvalues
    exact .inr ⟨j, mem_valuesOf.1 (hvalues ▸ List.mem_cons_self), h⟩
  · cases h

theorem exists_of_list? {xs : List α} (h : list? read j = some xs) :
    ∃ items, j = .arr items ∧ ∀ x ∈ xs, ∃ i ∈ items, read i = some x := by
  unfold list? at h
  split at h
  · rename_i items
    refine ⟨items, rfl, ?_⟩
    induction items generalizing xs with
    | nil =>
        cases h
        exact fun x hx => absurd hx List.not_mem_nil
    | cons i items ih =>
        rw [List.mapM_cons] at h
        obtain ⟨y, hy, h⟩ := Option.bind_eq_some_iff.1 h
        obtain ⟨ys, hys, h⟩ := Option.bind_eq_some_iff.1 h
        cases h
        intro x hx
        rcases List.mem_cons.1 hx with rfl | hx
        · exact ⟨i, List.mem_cons_self, hy⟩
        · obtain ⟨k, hk, hread⟩ := ih hys x hx
          exact ⟨k, List.mem_cons_of_mem i hk, hread⟩
  · cases h

/-- Each member of a list that may be left out is read from an item of an array in a field. -/
theorem exists_of_optional_list {xs : List α}
    (h : Json.optional fields name [] (list? read) = some xs) (hx : x ∈ xs) :
    ∃ items, (name, .arr items) ∈ fields ∧ ∃ i ∈ items, read i = some x := by
  rcases exists_of_optional h with rfl | ⟨j, hj, hread⟩
  · cases hx
  · obtain ⟨items, rfl, hitems⟩ := exists_of_list? hread
    exact ⟨items, hj, hitems x hx⟩

theorem le_of_required {n : Nat} (h : required fields name natural? = some n) : n ≤ maxNatural := by
  obtain ⟨j, -, hread⟩ := exists_of_required h
  exact le_of_natural? hread

theorem le_of_optional {n : Nat} (h : Json.optional fields name 1 natural? = some n) :
    n ≤ maxNatural := by
  rcases exists_of_optional h with rfl | ⟨j, -, hread⟩
  · decide
  · exact le_of_natural? hread

/-- The fields of a record are smaller than the record. -/
theorem sizeOf_lt_of_mem_fieldsOf? {names : List String} {k : Json}
    (hfields : fieldsOf? names j = some fields) (hk : (name, k) ∈ fields) : sizeOf k < sizeOf j := by
  unfold fieldsOf? at hfields
  split at hfields
  · cases hfields
    have hlt := List.sizeOf_lt_of_mem hk
    simp only [Json.obj.sizeOf_spec, Prod.mk.sizeOf_spec] at hlt ⊢
    omega
  · obtain ⟨-, rfl⟩ := positional?_eq_some_iff.1 hfields
    have hlt := List.sizeOf_lt_of_mem (List.of_mem_zip hk).2
    simp only [Json.arr.sizeOf_spec]
    omega
  · cases hfields

/-- Induction on what is nested in the arrays of records. -/
theorem record_induction (names : List String) {P : Json → Prop}
    (step : ∀ j, (∀ fields, fieldsOf? names j = some fields → ∀ name items,
      (name, .arr items) ∈ fields → ∀ i ∈ items, P i) → P j) (j : Json) : P j := by
  induction hsize : sizeOf j using Nat.strongRecOn generalizing j with
  | _ n ih =>
      refine step j fun fields hfields name items hf i hi => ih (sizeOf i) ?_ i rfl
      have hi := List.sizeOf_lt_of_mem hi
      have hf := sizeOf_lt_of_mem_fieldsOf? hfields hf
      simp only [Json.arr.sizeOf_spec] at hf
      omega

end Json

/-- Every reference that is read fits the format. -/
theorem ReferenceNode.bounded_of_ofJson? {j : Json} {n : ReferenceNode} (h : ofJson? j = some n) :
    n.Bounded := by
  induction j using record_induction fieldNames generalizing n with
  | step j ih =>
      rw [ofJson?_eq, record?] at h
      obtain ⟨fields, hfields, h⟩ := Option.bind_eq_some_iff.1 h
      obtain ⟨references, hreferences, h⟩ := Option.bind_eq_some_iff.1 h
      simp only [ofFields?, Option.bind_eq_bind, Option.bind_eq_some_iff] at h
      obtain ⟨_, -, _, -, _, -, _, -, line, hline, column, hcolumn, _, -, _, hnodes, h⟩ := h
      cases hnodes
      cases h
      refine ⟨le_of_required hline, le_of_optional hcolumn, fun r hr => ?_⟩
      obtain ⟨items, hitems, i, hi, hread⟩ := exists_of_optional_list hreferences hr
      exact ih fields hfields _ items hitems i hi hread

theorem ReferenceNode.bounded_of_optional {fields : List (String × Json)} {name : String}
    {ns : List ReferenceNode} (h : Json.optional fields name [] (list? ofJson?) = some ns) :
    ∀ n ∈ ns, n.Bounded := by
  intro n hn
  obtain ⟨items, -, i, -, hread⟩ := exists_of_optional_list h hn
  exact bounded_of_ofJson? hread

/-- Every declaration that is read fits the format. -/
theorem DeclarationNode.bounded_of_ofJson? {j : Json} {n : DeclarationNode} (h : ofJson? j = some n) :
    n.Bounded := by
  induction j using record_induction fieldNames generalizing n with
  | step j ih =>
      rw [ofJson?_eq, record?] at h
      obtain ⟨fields, hfields, h⟩ := Option.bind_eq_some_iff.1 h
      obtain ⟨declarations, hdeclarations, h⟩ := Option.bind_eq_some_iff.1 h
      obtain ⟨parameters, hparameters, h⟩ := Option.bind_eq_some_iff.1 h
      rw [ofFields?] at h
      iterate 4 obtain ⟨_, -, h⟩ := Option.bind_eq_some_iff.1 h
      obtain ⟨line, hline, h⟩ := Option.bind_eq_some_iff.1 h
      obtain ⟨column, hcolumn, h⟩ := Option.bind_eq_some_iff.1 h
      iterate 7 obtain ⟨_, -, h⟩ := Option.bind_eq_some_iff.1 h
      obtain ⟨_, hd, h⟩ := Option.bind_eq_some_iff.1 h
      obtain ⟨_, hp, h⟩ := Option.bind_eq_some_iff.1 h
      obtain ⟨_, hreferences, h⟩ := Option.bind_eq_some_iff.1 h
      obtain ⟨_, hrelated, h⟩ := Option.bind_eq_some_iff.1 h
      cases hd
      cases hp
      cases h
      have hnested : ∀ {name ns}, Json.optional fields name [] (list? ofJson?) = some ns →
          ∀ d ∈ ns, d.Bounded := by
        intro name ns hns d hd
        obtain ⟨items, hitems, i, hi, hread⟩ := exists_of_optional_list hns hd
        exact ih fields hfields _ items hitems i hi hread
      exact ⟨le_of_required hline, le_of_optional hcolumn, hnested hdeclarations,
        hnested hparameters, ReferenceNode.bounded_of_optional hreferences,
        ReferenceNode.bounded_of_optional hrelated⟩

theorem ImportStatement.bounded_of_ofJson? {j : Json} {i : ImportStatement} (h : ofJson? j = some i) :
    i.line ≤ maxNatural ∧ i.column ≤ maxNatural := by
  simp only [ofJson?, record?, Option.bind_eq_bind, Option.bind_eq_some_iff] at h
  obtain ⟨_, -, _, -, _, -, _, -, line, hline, column, hcolumn, h⟩ := h
  cases h
  exact ⟨le_of_required hline, le_of_optional hcolumn⟩

theorem FileNode.bounded_of_ofJson? {j : Json} {f : FileNode} (h : ofJson? j = some f) :
    f.Bounded := by
  simp only [ofJson?, record?, Option.bind_eq_bind, Option.bind_eq_some_iff] at h
  obtain ⟨_, -, _, -, _, -, imports, himports, _, -, h⟩ := h
  cases h
  intro i hi
  obtain ⟨items, -, k, -, hread⟩ := exists_of_optional_list himports hi
  exact ImportStatement.bounded_of_ofJson? hread

theorem Fragment.bounded_of_ofJson? {j : Json} {f : Fragment} (h : ofJson? j = some f) :
    f.Bounded := by
  simp only [ofJson?, record?, Option.bind_eq_bind, Option.bind_eq_some_iff] at h
  obtain ⟨_, -, file, hfile, _, hdeclarations, _, hreferences, h⟩ := h
  cases h
  obtain ⟨k, -, hread⟩ := exists_of_required hfile
  refine ⟨FileNode.bounded_of_ofJson? hread, fun d hd => ?_,
    ReferenceNode.bounded_of_optional hreferences⟩
  obtain ⟨items, -, i, -, hread⟩ := exists_of_optional_list hdeclarations hd
  exact DeclarationNode.bounded_of_ofJson? hread

/-- **Every document that is read fits the format.** -/
theorem Document.bounded_of_ofJson? {j : Json} {d : Document} (h : ofJson? j = some d) :
    d.Bounded := by
  simp only [ofJson?, record?, Option.bind_eq_bind, Option.bind_eq_some_iff] at h
  obtain ⟨_, -, fragments, hfragments, _, -, _, -, h⟩ := h
  cases h
  intro f hf
  obtain ⟨items, -, i, -, hread⟩ := exists_of_optional_list hfragments hf
  exact Fragment.bounded_of_ofJson? hread

end Deadwood
