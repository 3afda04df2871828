/-
  How the nodes of a document are read.

  1. **Program (`tree?_eq`)** — reading a node collects the nodes nested in it in one pass over its
     fields, so that the reader follows the JSON value.  Whether the fields stand in an object or in an
     array, it is the pass over the fields by name.

  2. **Specification (`ReferenceNode.ofJson?_eq`, `DeclarationNode.ofJson?_eq`)** — the answer is that
     of a reader that looks for the fields with nodes by name, like for all others.

  3. **Crux (`soleNodes_eq_optional`)** — the pass also reads a field that stands twice.  There the
     reader by name gives up at once, and the one that made the pass when it has seen both.
-/
import Deadwood.Document.Codec

namespace Deadwood

open Json

/-! ## Fields -/

namespace Json

variable {fields before after : List (String × Json)} {name other : String} {j : Json}

@[simp] theorem valuesOf_nil : valuesOf [] name = [] := rfl

@[simp] theorem valuesOf_append :
    valuesOf (before ++ after) name = valuesOf before name ++ valuesOf after name := by
  simp [valuesOf]

@[simp] theorem valuesOf_cons_self :
    valuesOf ((name, j) :: fields) name = j :: valuesOf fields name := by
  simp [valuesOf]

theorem valuesOf_cons_of_ne (h : name ≠ other) :
    valuesOf ((name, j) :: fields) other = valuesOf fields other := by
  simp [valuesOf, h]

theorem valuesOf_cons : valuesOf ((name, j) :: fields) other =
    if name = other then j :: valuesOf fields other else valuesOf fields other := by
  split
  · rename_i he
    rw [he, valuesOf_cons_self]
  · rename_i hne
    exact valuesOf_cons_of_ne hne

theorem mem_valuesOf : j ∈ valuesOf fields name ↔ (name, j) ∈ fields := by
  simp only [valuesOf, List.mem_map, List.mem_filter, beq_iff_eq]
  constructor
  · rintro ⟨f, ⟨hf, rfl⟩, rfl⟩
    exact hf
  · intro hf
    exact ⟨_, ⟨hf, rfl⟩, rfl⟩

/-- A field that cannot be read is not read. -/
theorem optional_eq_none {α : Type} {default : α} {read : Json → Option α}
    (hj : (name, j) ∈ fields) (hread : read j = none) : optional fields name default read = none := by
  have hmem := mem_valuesOf.2 hj
  unfold optional
  match valuesOf fields name, hmem with
  | [k], hmem => rw [List.mem_singleton.1 hmem] at hread; exact hread
  | _ :: _ :: _, _ => rfl

theorem record?_obj {α : Type} {names : List String} {read : List (String × Json) → Option α} :
    record? names read (.obj fields) = read fields := rfl

/-- An array has its fields in the order of the names. -/
theorem positional?_eq_some_iff {names : List String} {items : List Json} :
    positional? names items = some fields ↔
      items.length ≤ names.length ∧ names.zip items = fields := by
  unfold positional?
  split
  · rename_i h
    simp [h]
  · rename_i h
    simp [h]

end Json

/-! ## Collecting nodes -/

section Collecting

variable {α : Type} {holds : String → Bool} {read : Json → Option (List α)}
  {fields : List (String × Json)} {nodes : List (String × List α)} {name : String}

/-- One pass over the fields reads all that hold nodes. -/
def collect? (holds : String → Bool) (read : Json → Option (List α)) :
    List (String × Json) → Option (List (String × List α))
  | [] => some []
  | (name, j) :: rest =>
      if holds name then do
        let ns ← read j
        return (name, ns) :: (← collect? holds read rest)
      else collect? holds read rest

/-- What was collected under a name is what stands under that name, in order. -/
theorem mapM_valuesOf_of_collect? (h : collect? holds read fields = some nodes)
    (hname : holds name = true) : (valuesOf fields name).mapM read =
      some ((nodes.filter fun f => f.1 == name).map (·.2)) := by
  induction fields generalizing nodes with
  | nil =>
      cases h
      rfl
  | cons f fields ih =>
      obtain ⟨other, j⟩ := f
      rw [collect?] at h
      split at h
      · obtain ⟨ns, hns, h⟩ := Option.bind_eq_some_iff.1 h
        obtain ⟨rest, hrest, h⟩ := Option.bind_eq_some_iff.1 h
        cases h
        by_cases hne : other = name
        · subst hne
          rw [valuesOf_cons_self, List.mapM_cons, hns, ih hrest]
          simp
        · rw [valuesOf_cons_of_ne hne, ih hrest]
          simp [hne]
      · rename_i hother
        have hne : other ≠ name := fun he => hother (he ▸ hname)
        rw [valuesOf_cons_of_ne hne]
        exact ih h

/-- **A name has the nodes that are found by looking for the field.** -/
theorem soleNodes_eq_optional (h : collect? holds read fields = some nodes)
    (hname : holds name = true) : soleNodes nodes name = Json.optional fields name [] read := by
  have hread := mapM_valuesOf_of_collect? h hname
  unfold soleNodes Json.optional
  generalize (nodes.filter fun f => f.1 == name).map (·.2) = found at hread
  match valuesOf fields name, hread with
  | [], hread =>
      obtain rfl : found = [] := by simpa using hread.symm
      rfl
  | [j], hread =>
      obtain ⟨ns, hns, hread⟩ := Option.bind_eq_some_iff.1 hread
      cases hread
      exact hns.symm
  | j :: k :: js, hread =>
      simp only [List.mapM_cons] at hread
      obtain ⟨ns, -, hread⟩ := Option.bind_eq_some_iff.1 hread
      obtain ⟨_, hrest, hread⟩ := Option.bind_eq_some_iff.1 hread
      obtain ⟨ms, -, hrest⟩ := Option.bind_eq_some_iff.1 hrest
      obtain ⟨rest, -, hrest⟩ := Option.bind_eq_some_iff.1 hrest
      cases hrest
      cases hread
      rfl

/-- Where something nested cannot be read, the field that holds it cannot be read. -/
theorem exists_optional_eq_none (h : collect? holds read fields = none) :
    ∃ name, holds name = true ∧ Json.optional fields name [] read = none := by
  obtain ⟨name, j, hj, hname, hread⟩ :
      ∃ name j, (name, j) ∈ fields ∧ holds name = true ∧ read j = none := by
    induction fields with
    | nil => cases h
    | cons f fields ih =>
        obtain ⟨name, j⟩ := f
        rw [collect?] at h
        split at h
        · rename_i hname
          cases hread : read j with
          | none => exact ⟨name, j, List.mem_cons_self, hname, hread⟩
          | some ns =>
              have hrest : collect? holds read fields = none := by
                rw [hread] at h
                cases hrest : collect? holds read fields with
                | none => rfl
                | some nodes => rw [hrest] at h; cases h
              obtain ⟨n, k, hk, hn⟩ := ih hrest
              exact ⟨n, k, List.mem_cons_of_mem _ hk, hn⟩
        · obtain ⟨n, k, hk, hn⟩ := ih h
          exact ⟨n, k, List.mem_cons_of_mem _ hk, hn⟩
  exact ⟨name, hname, optional_eq_none hj hread⟩

end Collecting

/-! ## Trees -/

section Trees

variable {α : Type} {names : List String} {holds : String → Bool}
  {ofFields? : List (String × Json) → List (String × List α) → Option α}

theorem trees?_eq_mapM (items : List Json) :
    trees? names holds ofFields? items = items.mapM (tree? names holds ofFields?) := by
  induction items with
  | nil => rw [trees?]; rfl
  | cons j js ih => rw [trees?, ih, List.mapM_cons]

theorem nodes?_eq : nodes? names holds ofFields? = list? (tree? names holds ofFields?) := by
  funext j
  cases j with
  | arr items => rw [nodes?, trees?_eq_mapM, list?]
  | _ => rw [nodes?, list?] <;> simp

theorem nodesOf?_eq_collect? (fields : List (String × Json)) :
    nodesOf? names holds ofFields? fields =
      collect? holds (list? (tree? names holds ofFields?)) fields := by
  induction fields with
  | nil => rw [nodesOf?]; rfl
  | cons f fields ih => rw [nodesOf?, collect?, ih, nodes?_eq]

theorem nodesAt?_eq_collect? (others : List String) (items : List Json) :
    nodesAt? names holds ofFields? others items =
      collect? holds (list? (tree? names holds ofFields?)) (others.zip items) := by
  induction items generalizing others with
  | nil => cases others <;> rfl
  | cons j items ih =>
      cases others with
      | nil => rfl
      | cons name others => rw [nodesAt?, List.zip_cons_cons, collect?, ih, nodes?_eq]

/-- **A tree is read by one pass over its fields by name.** -/
theorem tree?_eq : tree? names holds ofFields? = record? names fun fields =>
    (collect? holds (list? (tree? names holds ofFields?)) fields).bind (ofFields? fields) := by
  funext j
  unfold record?
  cases j with
  | obj fields =>
      rw [tree?, nodesOf?_eq_collect?]
      rfl
  | arr items =>
      rw [tree?, fieldsOf?, nodesAt?_eq_collect?]
      refine Option.bind_congr fun fields hfields => ?_
      obtain ⟨-, rfl⟩ := positional?_eq_some_iff.1 hfields
      rfl
  | _ => rw [tree?, fieldsOf?] <;> simp

end Trees

/-! ## References -/

namespace ReferenceNode

variable {fields : List (String × Json)} {nodes nodes' : List (String × List ReferenceNode)}

theorem ofFields?_congr (h : soleNodes nodes "references" = soleNodes nodes' "references") :
    ofFields? fields nodes = ofFields? fields nodes' := by
  rw [ofFields?, ofFields?, h]

theorem ofFields?_of_none (h : soleNodes nodes "references" = none) :
    ofFields? fields nodes = none := by
  simp [ofFields?, h]

/-- A reference, all fields of which are looked for by name. -/
def ofNamed? (fields : List (String × Json)) : Option ReferenceNode :=
  (Json.optional fields "references" [] (list? ofJson?)).bind fun references =>
    ofFields? fields [("references", references)]

theorem bind_collect? :
    (collect? holdsNodes (list? ofJson?) fields).bind (ofFields? fields) = ofNamed? fields := by
  unfold ofNamed?
  cases hcollect : collect? holdsNodes (list? ofJson?) fields with
  | none =>
      obtain ⟨name, hname, hnone⟩ := exists_optional_eq_none hcollect
      rw [holdsNodes, beq_iff_eq] at hname
      subst hname
      rw [hnone]
      rfl
  | some nodes =>
      have hsole : soleNodes nodes "references" =
          Json.optional fields "references" [] (list? ofJson?) := soleNodes_eq_optional hcollect rfl
      rw [← hsole]
      cases hnodes : soleNodes nodes "references" with
      | none => exact ofFields?_of_none hnodes
      | some references => exact ofFields?_congr hnodes

/-- **The references nested in a reference are read like any other field.** -/
theorem ofJson?_eq : ofJson? = record? fieldNames ofNamed? := by
  have hnamed : (fun fields => (collect? holdsNodes (list? ofJson?) fields).bind (ofFields? fields)) =
      ofNamed? := funext fun _ => bind_collect?
  rw [← hnamed]
  exact tree?_eq

theorem ofJson?_obj : ofJson? (.obj fields) = ofNamed? fields := by
  rw [ofJson?_eq, record?_obj]

end ReferenceNode

/-! ## Declarations -/

namespace DeclarationNode

variable {fields : List (String × Json)} {nodes nodes' : List (String × List DeclarationNode)}

theorem ofFields?_congr (h : soleNodes nodes "declarations" = soleNodes nodes' "declarations")
    (h' : soleNodes nodes "unused_parameters" = soleNodes nodes' "unused_parameters") :
    ofFields? fields nodes = ofFields? fields nodes' := by
  rw [ofFields?, ofFields?, h, h']

theorem ofFields?_of_none (h : soleNodes nodes "declarations" = none ∨
    soleNodes nodes "unused_parameters" = none) : ofFields? fields nodes = none := by
  rcases h with h | h <;> simp [ofFields?, h]

/-- A declaration, all fields of which are looked for by name. -/
def ofNamed? (fields : List (String × Json)) : Option DeclarationNode :=
  (Json.optional fields "declarations" [] (list? ofJson?)).bind fun declarations =>
    (Json.optional fields "unused_parameters" [] (list? ofJson?)).bind fun parameters =>
      ofFields? fields [("declarations", declarations), ("unused_parameters", parameters)]

theorem bind_collect? :
    (collect? holdsNodes (list? ofJson?) fields).bind (ofFields? fields) = ofNamed? fields := by
  unfold ofNamed?
  cases hcollect : collect? holdsNodes (list? ofJson?) fields with
  | none =>
      obtain ⟨name, hname, hnone⟩ := exists_optional_eq_none hcollect
      rw [holdsNodes, Bool.or_eq_true, beq_iff_eq, beq_iff_eq] at hname
      rcases hname with rfl | rfl
      · rw [hnone]
        rfl
      · rw [hnone]
        cases Json.optional fields "declarations" [] (list? ofJson?) <;> rfl
  | some nodes =>
      have hdeclarations : soleNodes nodes "declarations" =
          Json.optional fields "declarations" [] (list? ofJson?) := soleNodes_eq_optional hcollect rfl
      have hparameters : soleNodes nodes "unused_parameters" =
          Json.optional fields "unused_parameters" [] (list? ofJson?) :=
        soleNodes_eq_optional hcollect rfl
      rw [← hdeclarations, ← hparameters]
      cases hd : soleNodes nodes "declarations" with
      | none => exact ofFields?_of_none (.inl hd)
      | some declarations =>
          cases hp : soleNodes nodes "unused_parameters" with
          | none => exact ofFields?_of_none (.inr hp)
          | some parameters => exact ofFields?_congr hd hp

/-- **What is nested in a declaration is read like any other field.** -/
theorem ofJson?_eq : ofJson? = record? fieldNames ofNamed? := by
  have hnamed : (fun fields => (collect? holdsNodes (list? ofJson?) fields).bind (ofFields? fields)) =
      ofNamed? := funext fun _ => bind_collect?
  rw [← hnamed]
  exact tree?_eq

theorem ofJson?_obj : ofJson? (.obj fields) = ofNamed? fields := by
  rw [ofJson?_eq, record?_obj]

end DeclarationNode

end Deadwood
