/-
  Patterns with groups, read from the left with backtracking.

  1. **Syntax (`Pattern`)** — the two ends of a text, literal text, one character of a class, any
     number of characters of a class, one pattern after another, a choice and a group.

  2. **The ways to read a text (`ways`)** — in the order in which a backtracking search tries them: the
     first side of a choice before the second, a longer run of a class before a shorter one.

  3. **Searching (`find?`)** — the first way from the leftmost place that has one.  A pattern for the
     whole text is read from its beginning only (`find?_start`).

  4. **Spans (`Spans`)** — what a pattern reads, without the order of the search.  The ways are the
     spans (`mem_ways_iff`); where all of them say the same, this is all there is to know
     (`find?_whole_map`).
-/

namespace Deadwood

/-- A pattern for texts. -/
inductive Pattern where
  /-- The beginning of the text. -/
  | start
  /-- The end of the text. -/
  | finish
  /-- This text. -/
  | text (cs : List Char)
  /-- One character of a class. -/
  | one (p : Char → Bool)
  /-- Any number of characters of a class, as many as possible. -/
  | many (p : Char → Bool)
  /-- One pattern and then another. -/
  | seq (a b : Pattern)
  /-- One pattern, or else another. -/
  | either (a b : Pattern)
  /-- A pattern whose text is kept under a number. -/
  | group (n : Nat) (a : Pattern)

namespace Pattern

/-- How far a pattern has got in a text. -/
structure Reading where
  /-- What has been read. -/
  read : List Char
  /-- What is left to read. -/
  rest : List Char
  /-- The texts of the groups passed so far. -/
  groups : List (Nat × List Char) := []

/-- The reading after one more piece, with the groups in it. -/
def Reading.past (r : Reading) (piece rest : List Char)
    (groups : List (Nat × List Char) := []) : Reading :=
  { read := r.read ++ piece, rest, groups := r.groups ++ groups }

/-- The runs of a class at the beginning of a text, each with what follows, the longest first. -/
def runs (p : Char → Bool) : List Char → List (List Char × List Char)
  | [] => [([], [])]
  | c :: cs =>
      if p c then (runs p cs).map (fun run => (c :: run.1, run.2)) ++ [([], c :: cs)]
      else [([], c :: cs)]

/-- The ways in which a pattern can go on, the preferred one first. -/
def ways : Pattern → Reading → List Reading
  | start, r => if r.read.isEmpty then [r] else []
  | finish, r => if r.rest.isEmpty then [r] else []
  | text cs, r => if cs.isPrefixOf r.rest then [r.past cs (r.rest.drop cs.length)] else []
  | one p, r =>
      match r.rest with
      | c :: cs => if p c then [r.past [c] cs] else []
      | [] => []
  | many p, r => (runs p r.rest).map fun run => r.past run.1 run.2
  | seq a b, r => (a.ways r).flatMap b.ways
  | either a b, r => a.ways r ++ b.ways r
  | group n a, r =>
      (a.ways r).map fun t => { t with groups := t.groups ++ [(n, t.read.drop r.read.length)] }

/-- The places of a text where a reading can begin, from the left. -/
def places (cs : List Char) : List Reading :=
  (List.range (cs.length + 1)).map fun n => { read := cs.take n, rest := cs.drop n }

/-- The first way to read the pattern at the leftmost place where it can be read. -/
def find? (a : Pattern) (cs : List Char) : Option Reading :=
  ((places cs).flatMap a.ways).head?

/-- The pattern reads a piece of a text, between what stands before and after it, with these
groups. -/
def Spans : Pattern → (before piece after : List Char) → List (Nat × List Char) → Prop
  | start, before, piece, _, groups => before = [] ∧ piece = [] ∧ groups = []
  | finish, _, piece, after, groups => after = [] ∧ piece = [] ∧ groups = []
  | text cs, _, piece, _, groups => piece = cs ∧ groups = []
  | one p, _, piece, _, groups => (∃ c, piece = [c] ∧ p c = true) ∧ groups = []
  | many p, _, piece, _, groups => (∀ c ∈ piece, p c = true) ∧ groups = []
  | seq a b, before, piece, after, groups => ∃ front back held more,
      piece = front ++ back ∧ groups = held ++ more ∧
        a.Spans before front (back ++ after) held ∧ b.Spans (before ++ front) back after more
  | either a b, before, piece, after, groups =>
      a.Spans before piece after groups ∨ b.Spans before piece after groups
  | group n a, before, piece, after, groups =>
      ∃ held, groups = held ++ [(n, piece)] ∧ a.Spans before piece after held

/-- A pattern for a whole text. -/
def whole (a : Pattern) : Pattern := .seq .start (.seq a .finish)

variable {a : Pattern} {p : Char → Bool} {r t : Reading} {cs : List Char}

/-! ## The ways are the spans -/

theorem mem_runs {run rest : List Char} :
    (run, rest) ∈ runs p cs ↔ cs = run ++ rest ∧ ∀ c ∈ run, p c = true := by
  induction cs generalizing run with
  | nil =>
      rw [runs, List.mem_singleton, Prod.mk.injEq]
      constructor
      · rintro ⟨rfl, rfl⟩
        exact ⟨rfl, by simp⟩
      · rintro ⟨hcs, -⟩
        exact List.append_eq_nil_iff.1 hcs.symm
  | cons c cs ih =>
      cases run with
      | nil => by_cases hc : p c = true <;> simp [runs, hc, @eq_comm _ rest]
      | cons d run => by_cases hc : p c = true <;> simp [runs, hc, ih] <;> grind

theorem past_nil {rest : List Char} (hrest : r.rest = rest) : r.past [] rest = r := by
  simp [Reading.past, ← hrest]

theorem past_past {front back rest : List Char} {held more : List (Nat × List Char)} :
    (r.past front (back ++ rest) held).past back rest more =
      r.past (front ++ back) rest (held ++ more) := by
  simp [Reading.past]

/-- Every way reads a span, and every span is read in some way. -/
theorem mem_ways_iff : t ∈ a.ways r ↔ ∃ piece rest groups,
    r.rest = piece ++ rest ∧ t = r.past piece rest groups ∧ a.Spans r.read piece rest groups := by
  induction a generalizing r t with
  | start =>
      by_cases hread : r.read = []
      · simp only [ways, hread, List.isEmpty_nil, if_true, List.mem_singleton, Spans, true_and]
        constructor
        · rintro rfl
          exact ⟨[], t.rest, [], rfl, (past_nil rfl).symm, rfl, rfl⟩
        · rintro ⟨_, rest, _, hrest, rfl, rfl, rfl⟩
          exact past_nil hrest
      · simp [ways, Spans, hread]
  | finish =>
      by_cases hrest : r.rest = []
      · simp only [ways, hrest, List.isEmpty_nil, if_true, List.mem_singleton, Spans]
        constructor
        · rintro rfl
          exact ⟨[], [], [], rfl, (past_nil hrest).symm, rfl, rfl, rfl⟩
        · rintro ⟨_, _, _, -, rfl, rfl, rfl, rfl⟩
          exact past_nil hrest
      · simp only [ways, List.isEmpty_iff, if_neg hrest, List.not_mem_nil, Spans, false_iff]
        rintro ⟨_, _, _, hsplit, -, rfl, rfl, -⟩
        exact hrest hsplit
  | text cs =>
      simp only [ways, List.isPrefixOf_iff_prefix, Spans]
      constructor
      · intro ht
        split at ht
        · rename_i hpre
          obtain ⟨rest, hrest⟩ := hpre
          rw [← hrest, List.drop_left, List.mem_singleton] at ht
          exact ⟨cs, rest, [], hrest.symm, ht, rfl, rfl⟩
        · cases ht
      · rintro ⟨_, rest, _, hrest, rfl, rfl, rfl⟩
        rw [hrest, if_pos (List.prefix_append _ _), List.drop_left, List.mem_singleton]
  | one p =>
      simp only [ways, Spans]
      constructor
      · intro ht
        split at ht
        · rename_i c rest hrest
          split at ht
          · rename_i hc
            exact ⟨[c], rest, [], hrest, List.mem_singleton.1 ht, ⟨c, rfl, hc⟩, rfl⟩
          · cases ht
        · cases ht
      · rintro ⟨_, rest, _, hrest, rfl, ⟨c, rfl, hc⟩, rfl⟩
        simp [hrest, hc]
  | many p =>
      simp only [ways, Spans, List.mem_map, Prod.exists, mem_runs]
      constructor
      · rintro ⟨run, rest, ⟨hrest, hrun⟩, rfl⟩
        exact ⟨run, rest, [], hrest, rfl, hrun, rfl⟩
      · rintro ⟨run, rest, _, hrest, rfl, hrun, rfl⟩
        exact ⟨run, rest, ⟨hrest, hrun⟩, rfl⟩
  | seq a b iha ihb =>
      simp only [ways, Spans, List.mem_flatMap, iha, ihb]
      constructor
      · rintro ⟨_, ⟨front, _, held, hfront, rfl, ha⟩, back, rest, more, rfl, rfl, hb⟩
        exact ⟨front ++ back, rest, held ++ more, by simpa using hfront, past_past,
          front, back, held, more, rfl, rfl, ha, hb⟩
      · rintro ⟨_, rest, _, hrest, rfl, front, back, held, more, rfl, rfl, ha, hb⟩
        exact ⟨r.past front (back ++ rest) held, ⟨front, back ++ rest, held, by simpa using hrest, rfl, ha⟩,
          back, rest, more, rfl, past_past.symm, hb⟩
  | either a b iha ihb =>
      simp only [ways, Spans, List.mem_append, iha, ihb, and_or_left, exists_or]
  | group n a ih =>
      simp only [ways, Spans, List.mem_map, ih]
      constructor
      · rintro ⟨_, ⟨piece, rest, held, hrest, rfl, ha⟩, rfl⟩
        exact ⟨piece, rest, held ++ [(n, piece)], hrest, by simp [Reading.past], held, rfl, ha⟩
      · rintro ⟨piece, rest, _, hrest, rfl, held, rfl, ha⟩
        exact ⟨r.past piece rest held, ⟨piece, rest, held, hrest, rfl, ha⟩, by simp [Reading.past]⟩

/-! ## Searching -/

/-- A pattern that begins with the beginning of the text is read from there only. -/
theorem find?_start : (seq start a).find? cs = (a.ways { read := [], rest := cs }).head? := by
  have hlater : ∀ r ∈ (List.range cs.length).map
      (fun n => ({ read := cs.take (n + 1), rest := cs.drop (n + 1) } : Reading)),
      (seq start a).ways r = [] := by
    intro r hr
    obtain ⟨n, hn, rfl⟩ := List.mem_map.1 hr
    have hread : cs.take (n + 1) ≠ [] := by
      have hlt := List.mem_range.1 hn
      exact List.ne_nil_of_length_pos (by rw [List.length_take]; omega)
    simp [ways, hread]
  have hfirst : (seq start a).ways { read := [], rest := cs } = a.ways { read := [], rest := cs } := by
    simp [ways]
  rw [find?, places, List.range_succ_eq_map, List.map_cons, List.map_map, List.flatMap_cons]
  have hnone := List.flatMap_eq_nil_iff.2 hlater
  simp only [Function.comp_def, Nat.succ_eq_add_one, List.take_zero, List.drop_zero, hnone, hfirst,
    List.append_nil]

/-- From the beginning, the ways of a pattern for the whole text are those to span it. -/
theorem mem_ways_whole : t ∈ (seq a finish).ways { read := [], rest := cs } ↔
    ∃ groups, t = { read := cs, rest := [], groups } ∧ a.Spans [] cs [] groups := by
  rw [mem_ways_iff]
  constructor
  · rintro ⟨_, _, _, rfl, rfl, front, _, held, _, rfl, rfl, ha, rfl, rfl, rfl⟩
    exact ⟨held, by simp [Reading.past], by simpa using ha⟩
  · rintro ⟨groups, rfl, ha⟩
    exact ⟨cs, [], groups, by simp, by simp [Reading.past],
      cs, [], groups, [], by simp, by simp, ha, rfl, rfl, rfl⟩

/-- Where the spans of the text say one thing at most, the search says it. -/
theorem find?_whole_map {β : Type} {f : List (Nat × List Char) → β} {answer : Option β}
    (hspans : ∀ x, answer = some x ↔ ∃ groups, a.Spans [] cs [] groups ∧ f groups = x) :
    (a.whole.find? cs).map (fun r => f r.groups) = answer := by
  rw [whole, find?_start]
  cases hlist : (seq a finish).ways { read := [], rest := cs } with
  | nil =>
      have hnone : ∀ x, answer ≠ some x := by
        intro x hx
        obtain ⟨groups, ha, -⟩ := (hspans x).1 hx
        have hmem := mem_ways_whole.2 ⟨groups, rfl, ha⟩
        rw [hlist] at hmem
        cases hmem
      exact (Option.eq_none_iff_forall_ne_some.2 hnone).symm
  | cons r others =>
      obtain ⟨groups, rfl, ha⟩ := mem_ways_whole.1 (hlist ▸ List.mem_cons_self)
      exact ((hspans (f groups)).2 ⟨groups, ha, rfl⟩).symm

end Pattern

end Deadwood
