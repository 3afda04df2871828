/-
  The format of documents: what may be left out, and what comes back.

  1. **Forms** — a document is made of records of a few forms and of lists of them.  Each form says
     which fields it has and in which order (`Form.fieldNames?`), which of them may be left out and
     what they are then taken to be (`Form.defaults`), and in which there are other records
     (`Form.parts`).

  2. **Defaults (`Fills.read?_eq`)** — a default may be written out wherever its field is missing, in an
     object at any place and in an array at the end, at any depth of a document and one after the
     other, and the document is read as before.  What one reader of fields makes of it is said once
     (`Respects`), and readers are put together from these.

  3. **Arrays** — a record that is an array is read like the object with these fields, so it is enough
     that the fields of the array restate each other (`restates_zip_append`, `restates_zip_cons`).

  4. **Format (`Document.keeps_format`)** — with that and the round trip: what is written is read
     again, what was read and is written stays as it is, and defaults may be left out.
-/
import Deadwood.Proofs.Document.RoundTrip
import Mathlib.Logic.Relation

namespace Deadwood

open Json

/-! ## Forms -/

/-- The forms of the values in a document that hold fields with defaults. -/
inductive Form where
  | document
  | fragment
  | file
  | importStatement
  | declaration
  | reference
  | list (item : Form)

namespace Form

/-- What a value of the form is read as. -/
def Value : Form → Type
  | document => Document
  | fragment => Fragment
  | file => FileNode
  | importStatement => ImportStatement
  | declaration => DeclarationNode
  | reference => ReferenceNode
  | list item => List item.Value

/-- The reader of the form. -/
def read? : (form : Form) → Json → Option form.Value
  | document => Document.ofJson?
  | fragment => Fragment.ofJson?
  | file => FileNode.ofJson?
  | importStatement => ImportStatement.ofJson?
  | declaration => DeclarationNode.ofJson?
  | reference => ReferenceNode.ofJson?
  | list item => list? item.read?

/-- The fields of a record of the form, in the order in which an array has them. -/
def fieldNames? : Form → Option (List String)
  | document => some Document.fieldNames
  | fragment => some Fragment.fieldNames
  | file => some FileNode.fieldNames
  | importStatement => some ImportStatement.fieldNames
  | declaration => some DeclarationNode.fieldNames
  | reference => some ReferenceNode.fieldNames
  | list _ => none

/-- The fields that may be left out, with their defaults. -/
def defaults : Form → List (String × Json)
  | document => [("fragments", .arr []), ("module_exports", .obj []), ("asset_references", .arr [])]
  | fragment => [("declarations", .arr []), ("references", .arr [])]
  | file => [("imports", .arr []), ("comments", .arr [])]
  | importStatement => [("is_testable", .bool false), ("is_exported", .bool false), ("column", .nat 1)]
  | declaration => [
      ("usrs", .arr []), ("name", .null), ("file", .null), ("column", .nat 1), ("accessibility", .null),
      ("accessibility_explicit", .null), ("attributes", .arr []), ("modifiers", .arr []),
      ("comments", .arr []), ("is_implicit", .bool false), ("is_objc_accessible", .bool false),
      ("declarations", .arr []), ("unused_parameters", .arr []), ("references", .arr []),
      ("related", .arr [])]
  | reference => [
      ("name", .null), ("file", .null), ("column", .nat 1), ("role", .str "unknown"),
      ("references", .arr [])]
  | list _ => []

/-- The fields with values of other forms. -/
def parts : Form → List (String × Form)
  | document => [("fragments", list fragment)]
  | fragment => [("file", file), ("declarations", list declaration), ("references", list reference)]
  | file => [("imports", list importStatement)]
  | declaration => [
      ("declarations", list declaration), ("unused_parameters", list declaration),
      ("references", list reference), ("related", list reference)]
  | reference => [("references", list reference)]
  | importStatement | list _ => []

end Form

/-- `Fills form j j'`: the second value is the first one with a default written out, or with the names
of its fields. -/
inductive Fills : Form → Json → Json → Prop where
  | default {form : Form} {before after : List (String × Json)} {name : String} {value : Json}
      (hdefault : (name, value) ∈ form.defaults) (hnew : valuesOf (before ++ after) name = []) :
      Fills form (.obj (before ++ after)) (.obj (before ++ (name, value) :: after))
  | field {form part : Form} {before after : List (String × Json)} {name : String} {j j' : Json}
      (hpart : (name, part) ∈ form.parts) (hfills : Fills part j j') :
      Fills form (.obj (before ++ (name, j) :: after)) (.obj (before ++ (name, j') :: after))
  /-- In an array the next field that is missing is the one after the last. -/
  | last {form : Form} {names : List String} {items : List Json} {name : String} {value : Json}
      (hnames : form.fieldNames? = some names) (hname : names[items.length]? = some name)
      (hdefault : (name, value) ∈ form.defaults) :
      Fills form (.arr items) (.arr (items ++ [value]))
  | place {form part : Form} {names : List String} {before after : List Json} {name : String}
      {j j' : Json} (hnames : form.fieldNames? = some names)
      (hname : names[before.length]? = some name) (hpart : (name, part) ∈ form.parts)
      (hfills : Fills part j j') :
      Fills form (.arr (before ++ j :: after)) (.arr (before ++ j' :: after))
  /-- A record that is an array may be written as an object. -/
  | named {form : Form} {names : List String} {items : List Json}
      (hnames : form.fieldNames? = some names) (hlength : items.length ≤ names.length) :
      Fills form (.arr items) (.obj (names.zip items))
  | item {form : Form} {before after : List Json} {j j' : Json} (hfills : Fills form j j') :
      Fills (.list form) (.arr (before ++ j :: after)) (.arr (before ++ j' :: after))

/-! ## Fields -/

/-- The second record has a default in addition, or in a field a value that is read as before. -/
inductive Restates (form : Form) : List (String × Json) → List (String × Json) → Prop where
  | default {before after : List (String × Json)} {name : String} {value : Json}
      (hdefault : (name, value) ∈ form.defaults) (hnew : valuesOf (before ++ after) name = []) :
      Restates form (before ++ after) (before ++ (name, value) :: after)
  | field {part : Form} {before after : List (String × Json)} {name : String} {j j' : Json}
      (hpart : (name, part) ∈ form.parts) (hread : part.read? j' = part.read? j) :
      Restates form (before ++ (name, j) :: after) (before ++ (name, j') :: after)

/-- The reader of fields does not notice. -/
def Respects {α : Type} (form : Form) (read : List (String × Json) → Option α) : Prop :=
  ∀ fields fields', Restates form fields fields' → read fields' = read fields

/-- What is read of the values under one name: of none what is missing, of several nothing. -/
def readValues {α : Type} (missing : Option α) (read : Json → Option α) : List Json → Option α
  | [] => missing
  | [j] => read j
  | _ => none

theorem required_eq_readValues {α : Type} {fields : List (String × Json)} {name : String}
    {read : Json → Option α} :
    required fields name read = readValues none read (valuesOf fields name) := by
  unfold required
  match valuesOf fields name with
  | [] | [_] | _ :: _ :: _ => rfl

theorem lookup_of_mem {α : Type} {entries : List (String × α)} {name : String} {x : α}
    (hnames : (entries.map (·.1)).Nodup) (hx : (name, x) ∈ entries) :
    entries.lookup name = some x := by
  induction entries with
  | nil => cases hx
  | cons e entries ih =>
      obtain ⟨hfirst, hrest⟩ := List.nodup_cons.1 hnames
      rcases List.mem_cons.1 hx with rfl | hx
      · rw [List.lookup_cons_self]
      · have hne : name ≠ e.1 := by
          rintro rfl
          exact hfirst (List.mem_map.2 ⟨_, hx, rfl⟩)
        rw [List.lookup_cons, beq_false_of_ne hne]
        exact ih hrest hx

theorem Form.lookup_defaults {form : Form} {name : String} {value : Json}
    (h : (name, value) ∈ form.defaults) : form.defaults.lookup name = some value :=
  lookup_of_mem (by cases form with | list _ => exact .nil | _ => decide) h

theorem Form.lookup_parts {form part : Form} {name : String} (h : (name, part) ∈ form.parts) :
    form.parts.lookup name = some part :=
  lookup_of_mem (by cases form with | list _ => exact .nil | _ => decide) h

namespace Respects

variable {α β : Type} {form part : Form} {name : String} {default : α} {read : Json → Option α}
  {missing : Option α} {value : Json}

theorem const {o : Option α} : Respects form fun _ => o := fun _ _ _ => rfl

theorem bind {f : List (String × Json) → Option α} {g : α → List (String × Json) → Option β}
    (hf : Respects form f) (hg : ∀ x, Respects form (g x)) :
    Respects form fun fields => (f fields).bind fun x => g x fields := by
  intro fields fields' h
  show (f fields').bind _ = (f fields).bind _
  rw [hf fields fields' h]
  exact congrArg _ (funext fun x => hg x fields fields' h)

/-- A field is read as before where its default is read as if it was missing, and what is in it is read
as before. -/
theorem readValues (hdefault : ∀ v, form.defaults.lookup name = some v → read v = missing)
    (hpart : ∀ part, form.parts.lookup name = some part → ∀ j j', part.read? j' = part.read? j →
      read j' = read j) :
    Respects form fun fields => readValues missing read (valuesOf fields name) := by
  rintro _ _ (@⟨before, after, other, v, hv, hnew⟩ | @⟨part, before, after, other, j, j', hj, hread⟩)
  · by_cases hother : other = name
    · subst hother
      obtain ⟨hbefore, hafter⟩ : valuesOf before other = [] ∧ valuesOf after other = [] := by
        simpa using hnew
      simp only [valuesOf_append, valuesOf_cons_self, hbefore, hafter]
      exact hdefault v (Form.lookup_defaults hv)
    · simp only [valuesOf_append, valuesOf_cons_of_ne hother]
  · by_cases hother : other = name
    · subst hother
      simp only [valuesOf_append, valuesOf_cons_self]
      -- a field that stands twice is read neither way
      match valuesOf before other, valuesOf after other with
      | [], [] => exact hpart part (Form.lookup_parts hj) j j' hread
      | [], _ :: _ | [_], _ | _ :: _ :: _, _ => rfl
    · simp only [valuesOf_append, valuesOf_cons_of_ne hother]

/-- A field with a default that the reader knows. -/
theorem optional (hdefault : form.defaults.lookup name = some value) (hread : read value = some default)
    (hpart : form.parts.lookup name = none) :
    Respects form fun fields => Json.optional fields name default read :=
  readValues (by rw [hdefault]; rintro _ ⟨⟩; exact hread) (by rw [hpart]; nofun)

theorem required (hdefault : form.defaults.lookup name = none)
    (hpart : form.parts.lookup name = none) :
    Respects form fun fields => Json.required fields name read := by
  simp only [required_eq_readValues]
  exact readValues (by rw [hdefault]; nofun) (by rw [hpart]; nofun)

/-- A list of records that may be left out. -/
theorem optionalPart (part : Form) {default : part.Value}
    (hdefault : form.defaults.lookup name = some value) (hread : part.read? value = some default)
    (hpart : form.parts.lookup name = some part) :
    Respects form fun fields => Json.optional fields name default part.read? :=
  readValues (by rw [hdefault]; rintro _ ⟨⟩; exact hread)
    (by rw [hpart]; rintro _ ⟨⟩; exact fun _ _ h => h)

/-- A record that has to be there. -/
theorem requiredPart (part : Form) (hdefault : form.defaults.lookup name = none)
    (hpart : form.parts.lookup name = some part) :
    Respects form fun fields => Json.required fields name part.read? := by
  simp only [required_eq_readValues]
  exact readValues (by rw [hdefault]; nofun) (by rw [hpart]; rintro _ ⟨⟩; exact fun _ _ h => h)

end Respects

namespace Form

theorem respects_reference : Respects reference fun fields => reference.read? (.obj fields) := by
  simp only [read?, ReferenceNode.ofJson?_obj, ReferenceNode.ofNamed?, ReferenceNode.ofFields?]
  exact .bind (.optionalPart (list reference) rfl rfl rfl) fun _ =>
    .bind (.required rfl rfl) fun _ => .bind (.required rfl rfl) fun _ =>
    .bind (.optional rfl rfl rfl) fun _ => .bind (.optional rfl rfl rfl) fun _ =>
    .bind (.required rfl rfl) fun _ => .bind (.optional rfl rfl rfl) fun _ =>
    .bind (.optional rfl rfl rfl) fun _ => .const

theorem respects_declaration :
    Respects declaration fun fields => declaration.read? (.obj fields) := by
  simp only [read?, DeclarationNode.ofJson?_obj, DeclarationNode.ofNamed?, DeclarationNode.ofFields?]
  exact .bind (.optionalPart (list declaration) rfl rfl rfl) fun _ =>
    .bind (.optionalPart (list declaration) rfl rfl rfl) fun _ =>
    .bind (.required rfl rfl) fun _ => .bind (.optional rfl rfl rfl) fun _ =>
    .bind (.optional rfl rfl rfl) fun _ => .bind (.optional rfl rfl rfl) fun _ =>
    .bind (.required rfl rfl) fun _ => .bind (.optional rfl rfl rfl) fun _ =>
    .bind (.optional rfl rfl rfl) fun _ => .bind (.optional rfl rfl rfl) fun _ =>
    .bind (.optional rfl rfl rfl) fun _ => .bind (.optional rfl rfl rfl) fun _ =>
    .bind (.optional rfl rfl rfl) fun _ => .bind (.optional rfl rfl rfl) fun _ =>
    .bind (.optional rfl rfl rfl) fun _ => .bind .const fun _ => .bind .const fun _ =>
    .bind (.optionalPart (list reference) rfl rfl rfl) fun _ =>
    .bind (.optionalPart (list reference) rfl rfl rfl) fun _ => .const

/-- **No reader of records notices a default.** -/
theorem respects (form : Form) : Respects form fun fields => form.read? (.obj fields) := by
  cases form with
  | document =>
      simp only [read?, Document.ofJson?, record?_obj]
      exact .bind (.optionalPart (list fragment) rfl rfl rfl) fun _ =>
        .bind (.optional rfl rfl rfl) fun _ => .bind (.optional rfl rfl rfl) fun _ => .const
  | fragment =>
      simp only [read?, Fragment.ofJson?, record?_obj]
      exact .bind (.requiredPart file rfl rfl) fun _ =>
        .bind (.optionalPart (list declaration) rfl rfl rfl) fun _ =>
        .bind (.optionalPart (list reference) rfl rfl rfl) fun _ => .const
  | file =>
      simp only [read?, FileNode.ofJson?, record?_obj]
      exact .bind (.required rfl rfl) fun _ => .bind (.required rfl rfl) fun _ =>
        .bind (.optionalPart (list importStatement) rfl rfl rfl) fun _ =>
        .bind (.optional rfl rfl rfl) fun _ => .const
  | importStatement =>
      simp only [read?, ImportStatement.ofJson?, record?_obj]
      exact .bind (.required rfl rfl) fun _ => .bind (.optional rfl rfl rfl) fun _ =>
        .bind (.optional rfl rfl rfl) fun _ => .bind (.required rfl rfl) fun _ =>
        .bind (.optional rfl rfl rfl) fun _ => .const
  | declaration => exact respects_declaration
  | reference => exact respects_reference
  | list _ => exact .const

end Form

/-! ## Arrays -/

/-- A record that is an array is read like the object with these fields. -/
theorem Form.read?_arr {form : Form} {names : List String} {items : List Json}
    (hnames : form.fieldNames? = some names) :
    form.read? (.arr items) = (positional? names items).bind fun fields => form.read? (.obj fields) := by
  cases form with
  | list item => cases hnames
  | declaration =>
      cases hnames
      simp only [Form.read?, DeclarationNode.ofJson?_eq]
      rfl
  | reference =>
      cases hnames
      simp only [Form.read?, ReferenceNode.ofJson?_eq]
      rfl
  | _ =>
      cases hnames
      rfl

theorem Form.nodup_fieldNames? {form : Form} {names : List String}
    (hnames : form.fieldNames? = some names) : names.Nodup := by
  cases form with
  | list item => cases hnames
  | _ =>
      cases hnames
      decide

section Arrays

variable {names : List String} {name : String} {items before after : List Json} {j j' : Json}

/-- What stands at a place of an array has the name for that place. -/
theorem zip_append_cons (hname : names[before.length]? = some name) :
    names.zip (before ++ j :: after) =
      names.zip before ++ (name, j) :: (names.drop (before.length + 1)).zip after := by
  induction before generalizing names with
  | nil =>
      cases names with
      | nil => cases hname
      | cons first names =>
          obtain rfl : first = name := by simpa using hname
          rfl
  | cons i before ih =>
      cases names with
      | nil => cases hname
      | cons first names =>
          have hrest : names[before.length]? = some name := by simpa using hname
          rw [List.cons_append, List.zip_cons_cons, ih hrest]
          rfl

/-- The name for the place after the last one has not stood before. -/
theorem valuesOf_zip_eq_nil (hnodup : names.Nodup) (hname : names[items.length]? = some name) :
    valuesOf (names.zip items) name = [] := by
  refine List.eq_nil_iff_forall_not_mem.2 fun k hk => ?_
  obtain ⟨i, hi, he⟩ := List.mem_iff_getElem.1 (mem_valuesOf.1 hk)
  rw [List.length_zip] at hi
  obtain ⟨hlast, hlastName⟩ := List.getElem?_eq_some_iff.1 hname
  rw [List.getElem_zip, Prod.mk.injEq] at he
  have hsame : i = items.length := (hnodup.getElem_inj_iff).1 (he.1.trans hlastName.symm)
  omega

variable {form part : Form} {value : Json}

theorem restates_zip_append (hnames : form.fieldNames? = some names)
    (hname : names[items.length]? = some name) (hdefault : (name, value) ∈ form.defaults) :
    Restates form (names.zip items) (names.zip (items ++ [value])) := by
  have hnew : valuesOf (names.zip items ++ []) name = [] := by
    rw [List.append_nil]
    exact valuesOf_zip_eq_nil (Form.nodup_fieldNames? hnames) hname
  have hlast : names.zip (items ++ [value]) = names.zip items ++ [(name, value)] := by
    rw [zip_append_cons hname, List.zip_nil_right]
  rw [hlast]
  simpa using Restates.default hdefault hnew

theorem restates_zip_cons (hname : names[before.length]? = some name)
    (hpart : (name, part) ∈ form.parts) (hread : part.read? j' = part.read? j) :
    Restates form (names.zip (before ++ j :: after)) (names.zip (before ++ j' :: after)) := by
  rw [zip_append_cons hname, zip_append_cons hname]
  exact .field hpart hread

/-- Arrays of as many items as before, or with room for one more, are read as before if their fields
restate each other. -/
theorem Form.read?_arr_of_restates {items' : List Json} (hnames : form.fieldNames? = some names)
    (hroom : items'.length ≤ names.length ↔ items.length ≤ names.length)
    (hfields : Restates form (names.zip items) (names.zip items')) :
    form.read? (.arr items') = form.read? (.arr items) := by
  rw [read?_arr hnames, read?_arr hnames]
  unfold positional?
  by_cases hlength : items.length ≤ names.length
  · rw [if_pos hlength, if_pos (hroom.2 hlength)]
    exact Form.respects form _ _ hfields
  · rw [if_neg hlength, if_neg (hroom.not.2 hlength)]

end Arrays

/-- **A value is read as before when a default is written out**, at any depth. -/
theorem Fills.read?_eq {form : Form} {j j' : Json} (h : Fills form j j') :
    form.read? j' = form.read? j := by
  induction h with
  | default hdefault hnew => exact Form.respects _ _ _ (.default hdefault hnew)
  | field hpart _ ih => exact Form.respects _ _ _ (.field hpart ih)
  | @last form names items name value hnames hname hdefault =>
      have hlt : items.length < names.length := (List.getElem?_eq_some_iff.1 hname).1
      refine Form.read?_arr_of_restates hnames ?_ (restates_zip_append hnames hname hdefault)
      rw [List.length_append, List.length_singleton]
      omega
  | place hnames hname hpart _ ih =>
      refine Form.read?_arr_of_restates hnames ?_ (restates_zip_cons hname hpart ih)
      rw [List.length_append, List.length_append, List.length_cons, List.length_cons]
  | named hnames hlength =>
      rw [Form.read?_arr hnames, positional?, if_pos hlength, Option.bind_some]
  | @item form before after j j' _ ih =>
      show (before ++ j' :: after).mapM form.read? = (before ++ j :: after).mapM form.read?
      rw [List.mapM_append, List.mapM_append, List.mapM_cons, List.mapM_cons, ih]

namespace Document

/-- Reading a document and writing what was read. -/
def rewrite? (j : Json) : Option Json := (ofJson? j).map toJson

/-- **The format keeps documents.**  What is written is read again, but for the comments of files; a
document that was read and written stays as it is; and defaults may be left out, of objects and of
arrays. -/
theorem keeps_format :
    (∀ d : Document, d.Bounded → ofJson? d.toJson = some d.withoutComments) ∧
    (∀ j k, rewrite? j = some k → rewrite? k = some k) ∧
    ∀ j j', Relation.ReflTransGen (Fills .document) j j' → ofJson? j' = ofJson? j := by
  refine ⟨fun d hd => hd.ofJson?_toJson, fun j k hk => ?_, fun j j' h => ?_⟩
  · obtain ⟨d, hread, rfl⟩ := Option.map_eq_some_iff.1 hk
    rw [rewrite?, (bounded_of_ofJson? hread).ofJson?_toJson, Option.map_some, toJson_withoutComments]
  · induction h with
    | refl => rfl
    | tail _ hfills ih => exact hfills.read?_eq.trans ih

/-- A file of two modules, in which a class has a property. -/
def account (directives : List Directive) : Document :=
  { fragments := [
      { file := { path := ⟨"a//b.swift"⟩, modules := .ofList ["B", "A"]
                  comments := ["swiftdeadcode:ignore:all"], directives }
        declarations := [
          { kind := .classType, line := 3, usrs := ["s:C"]
            declarations := [{ kind := .instanceVariable, line := 4 }] }] }] }

/-- The same in as few words as the format allows, with more fields of the document and of the
property. -/
def terse (outer inner : List (String × Json)) : Json :=
  let property : Json := .obj (("line", .nat 4) :: inner ++ [("kind", .str "var_instance")])
  let type : Json := .obj [("kind", .str "class"), ("line", .nat 3), ("usrs", texts ["s:C"]),
    ("declarations", .arr [property])]
  let file : Json := .obj [("path", .str "a//b.swift"), ("modules", texts ["B", "A", "B"]),
    ("comments", texts ["swiftdeadcode:ignore:all"])]
  .obj (outer ++ [("fragments", .arr [.obj [("file", file), ("declarations", .arr [type])]])])

/-- The same with its records as arrays, and with more fields of the document. -/
def inOrder (rest : List Json) : Json :=
  let property : Json := .arr [.str "var_instance", .arr [], .null, .null, .nat 4]
  let type : Json := .obj [("kind", .str "class"), ("line", .nat 3), ("usrs", texts ["s:C"]),
    ("declarations", .arr [property])]
  let file : Json := .arr [.str "a//b.swift", texts ["B", "A", "B"], .arr [],
    texts ["swiftdeadcode:ignore:all"]]
  .arr (.arr [.arr [file, .arr [type]]] :: rest)

theorem fills_terse : Relation.ReflTransGen (Fills .document) (terse [] [])
    (terse [("module_exports", .obj [])] [("column", .nat 1)]) := by
  have hproperty : Fills .declaration (.obj [("line", .nat 4), ("kind", .str "var_instance")])
      (.obj [("line", .nat 4), ("column", .nat 1), ("kind", .str "var_instance")]) :=
    @Fills.default .declaration [_] [_] "column" _ (by simp [Form.defaults]) rfl
  have hinner : Fills .document (terse [] []) (terse [] [("column", .nat 1)]) :=
    @Fills.field .document (.list .fragment) [] [] "fragments" _ _ (by simp [Form.parts])
      (@Fills.item .fragment [] [] _ _
        (@Fills.field .fragment (.list .declaration) [_] [] "declarations" _ _ (by simp [Form.parts])
          (@Fills.item .declaration [] [] _ _
            (@Fills.field .declaration (.list .declaration) [_, _, _] [] "declarations" _ _
              (by simp [Form.parts]) (@Fills.item .declaration [] [] _ _ hproperty)))))
  have houter : Fills .document (terse [] [("column", .nat 1)])
      (terse [("module_exports", .obj [])] [("column", .nat 1)]) :=
    @Fills.default .document [] [_] "module_exports" _ (by simp [Form.defaults]) rfl
  exact .head hinner (.single houter)

theorem keeps_format_account :
    ofJson? (account [.ignoreAll]).toJson = some (account [.ignoreAll]).withoutComments ∧
    ofJson? (terse [] []) = some (account []) ∧ ofJson? (inOrder []) = some (account []) ∧
    (∃ k, rewrite? (inOrder []) = some k ∧ rewrite? k = some k) ∧
    ofJson? (terse [("module_exports", .obj [])] [("column", .nat 1)]) = ofJson? (terse [] []) ∧
    ofJson? (inOrder [.obj []]) = ofJson? (inOrder []) := by
  have hread : ofJson? (inOrder []) = some (account []) := rfl
  have hbounded : (account [.ignoreAll]).Bounded := by
    -- what the comments ask for plays no part in it
    intro f hf
    obtain rfl := List.mem_singleton.1 hf
    have hfragment := bounded_of_ofJson? hread _ List.mem_cons_self
    exact ⟨hfragment.file, hfragment.declarations, hfragment.references⟩
  have hrewrite : rewrite? (inOrder []) = some (account []).toJson := by
    rw [rewrite?, hread, Option.map_some]
  have hlast : Fills .document (inOrder []) (inOrder [.obj []]) :=
    @Fills.last .document Document.fieldNames [_] "module_exports" _ rfl rfl
      (by simp [Form.defaults])
  exact ⟨keeps_format.1 _ hbounded, rfl, hread, ⟨_, hrewrite, keeps_format.2.1 _ _ hrewrite⟩,
    keeps_format.2.2 _ _ fills_terse, keeps_format.2.2 _ _ (.single hlast)⟩

end Document

end Deadwood
