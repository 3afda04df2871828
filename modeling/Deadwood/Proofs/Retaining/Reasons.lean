/-
  Why a declaration is retained.

  1. **Picks (`Pass.picks`)** — a pass that retains declarations lists them first, and reads the graph
     only as it is when the pass starts.  Folding is the exception: it marks as it goes, but marks
     extensions only.

  2. **One pass (`isRetained_run_iff`)** — what is retained after a pass was retained before or is
     picked.

  3. **The end (`isRetained_analyse_iff`)** — so whatever is retained in the end was picked by some pass,
     and no mark gets lost on the way.
-/
import Deadwood.Proofs.Extensions.Turn
import Deadwood.Proofs.Retaining.Settings

namespace Deadwood

open Deadwood.Graph

variable {s : Settings} {g h : Graph} {d e : DeclId} {pass : Pass} {x : Declaration} {xs : List Pass}

/-! ## Picks -/

/-- The declarations that a pass lists and then retains. -/
def Pass.picks (s : Settings) (g : Graph) : Pass → List DeclId
  | directives => Directives.suppressed g ++ Directives.keptParameters g
  | foreignOverrides => Overrides.foreign g
  | dynamicMembers => Retention.dynamicMembers g
  | propertyWrappers => Retention.propertyWrappers g
  | resultBuilders => Retention.resultBuilders g
  | stringInterpolation => Retention.stringInterpolation g
  | entryPoints => Retention.entryPoints g
  | pass => pass.keeps s g

/-! ## One pass -/

theorem Directives.isRetained_obey_iff : (obey g).isRetained d = true ↔ g.isRetained d = true ∨
    d ∈ suppressed g ++ keptParameters g ∧ g.hasDeclaration d = true := by
  have hignored : ((g.retainAll (suppressed g)).markAll .ignored (suppressed g)).isRetained d = true ↔
      (g.retainAll (suppressed g)).isRetained d = true := by
    rw [isRetained, isMarked_iff, isRetained, isMarked_iff, mem_marks_markAll]
    exact or_iff_right fun hput => absurd hput.1 (by decide)
  have hlive : ((g.retainAll (suppressed g)).markAll .ignored (suppressed g)).hasDeclaration d =
      g.hasDeclaration d := sameOutline_markAll.hasDeclaration.trans sameOutline_markAll.hasDeclaration
  rw [obey, isRetained_retainAll, hignored, hlive, isRetained_retainAll, List.mem_append, or_and_right,
    or_assoc]

namespace Extensions

/-- At its turn an extension is the only one that may come to be retained. -/
theorem isRetained_of_foldOne (hg : g.Consistent) (hd : (foldOne g e).graph.isRetained d = true) :
    g.isRetained d = true ∨ ∃ x, g.declaration? d = some x ∧ x.kind.isExtension = true := by
  have T : Turn _ g e (foldOne g e) := turn_foldOne hg
  generalize foldOne g e = o at T hd
  cases T with
  | gone | unmapped | proto => exact .inl hd
  | @foreign x hx hk _ =>
      have hput : (g.retainAll [e]).isRetained d = true ↔
          g.isRetained d = true ∨ d ∈ [e] ∧ g.hasDeclaration d = true := isRetained_retainAll
      refine (hput.1 hd).imp_right fun hput => ?_
      obtain ⟨kind, hk⟩ := Option.ne_none_iff_exists'.1 hk
      rw [List.mem_singleton.1 hput.1]
      exact ⟨x, hx, Kind.isExtension_of_extended hk⟩
  | @folded t k hf H =>
      have hmay : Pass.foldExtensions.MayDo (.removeDeclaration e) := rfl
      have hd : d ∈ (((Operation.removeDeclaration e).apply k).marks.of .retained).toList :=
        isMarked_iff.1 hd
      rcases (mem_marks_apply H.coherent hmay).1 hd with ⟨hput, -⟩ | ⟨hk, -⟩
      · cases hput
      · rw [H.marks] at hk
        exact .inl (isMarked_iff.2 hk)

/-- Folding retains nothing but extensions. -/
theorem isRetained_of_foldEach {ids : List DeclId} (hg : g.Consistent)
    (hx : (foldEach g ids).graph.declaration? d = some x) (hext : x.kind.isExtension = false)
    (hd : (foldEach g ids).graph.isRetained d = true) : g.isRetained d = true := by
  induction ids generalizing g with
  | nil => exact hd
  | cons e ids ih =>
      obtain ⟨hone, hlives⟩ := outlives_foldOne (e := e) hg
      have hstep : ∀ {y : Declaration}, (foldOne g e).graph.declaration? d = some y →
          y.kind = x.kind → (foldOne g e).graph.isRetained d = true → g.isRetained d = true := by
        intro y hy hyx hd
        refine (isRetained_of_foldOne hg hd).resolve_right ?_
        rintro ⟨z, hz, hzext⟩
        obtain ⟨z', hz', hkind⟩ := hlives.kind hy
        rw [hz] at hz'
        cases hz'
        rw [hkind, hyx, hext] at hzext
        cases hzext
      rw [foldEach] at hx hd
      cases hf : (foldOne g e).fault with
      | some fault =>
          rw [hf] at hx hd
          exact hstep hx rfl hd
      | none =>
          rw [hf] at hx hd
          obtain ⟨y, hy, hyx⟩ := (outlives_foldEach hone).2.kind hx
          exact hstep hy hyx (ih hone hx hd)

end Extensions

/-- **What is retained after a pass**: what was, and what the pass picks.  Extensions are left out, for
folding retains some without picking them beforehand. -/
theorem isRetained_run_iff (hg : g.Consistent) (hx : (pass.run s g).graph.declaration? d = some x)
    (hext : x.kind.isExtension = false) :
    (pass.run s g).graph.isRetained d = true ↔ g.isRetained d = true ∨ d ∈ pass.picks s g := by
  have hlives : Outlives g (pass.run s g).graph := Pass.evolves_run.outlives hg
  have hlive : g.hasDeclaration d = true := hlives.live (hasDeclaration_of_eq hx)
  have hkept : ∀ {p : Prop}, ¬ p → ((pass.run s g).graph.isRetained d = true → g.isRetained d = true) →
      ((pass.run s g).graph.isRetained d = true ↔ g.isRetained d = true ∨ p) := fun hp hold =>
    ⟨fun hd => .inl (hold hd), fun hd =>
      hlives.marked .retained d (hasDeclaration_of_eq hx) (hd.resolve_right hp)⟩
  cases pass with
  | directives =>
      exact Directives.isRetained_obey_iff.trans (or_congr_right (and_iff_left hlive))
  | foldExtensions =>
      exact hkept List.not_mem_nil (Extensions.isRetained_of_foldEach hg hx hext)
  | foreignOverrides | dynamicMembers | propertyWrappers | resultBuilders | stringInterpolation
  | entryPoints | previews | testCases | markedTests | assets | publicApi | objcAccessible
  | patterns | unusedParameters =>
      exact isRetained_retainAll.trans (or_congr_right (and_iff_left hlive))
  | unusedImports | cascadeAccess | protocolExtensions | conformances | overrides | enumCases
  | defaultConstructors | memberwiseInitializers | genericConstructors | accessors
  | assignOnlyProperties | reachability | redundantProtocols | redundantPublic | redundantInternal
  | redundantFileprivate =>
      exact hkept List.not_mem_nil fun hd => Pass.evolves_run.isMarked_of_not_puts hg (by decide) hd

/-! ## The end -/

/-- What is retained after a run: what was, and what some pass of the run picked when it started. -/
theorem isRetained_runPasses_iff (hg : g.Consistent) (hnone : (runPasses s g xs).failure = none)
    (hx : (runPasses s g xs).graph.declaration? d = some x) (hext : x.kind.isExtension = false) :
    (runPasses s g xs).graph.isRetained d = true ↔ g.isRetained d = true ∨
      ∃ before pass after, xs = before ++ pass :: after ∧
        d ∈ pass.picks s (runPasses s g before).graph := by
  induction xs generalizing g with
  | nil =>
      refine (or_iff_left ?_).symm
      rintro ⟨before, pass, after, he, -⟩
      simp at he
  | cons first xs ih =>
      obtain ⟨hf, hrest⟩ := failure_runPasses_cons.1 hnone
      have hone : (first.run s g).graph.Consistent := Pass.coherent_run hg
      have hgraph : ∀ ys, (runPasses s g (first :: ys)).graph =
          (runPasses s (first.run s g).graph ys).graph := fun ys => graph_runPasses_cons hf
      rw [hgraph] at hx ⊢
      obtain ⟨y, hy, hyx⟩ := (outlives_runPasses hone).kind hx
      rw [ih hone hrest hx, isRetained_run_iff hg hy (by rw [hyx]; exact hext), or_assoc]
      refine or_congr_right ⟨?_, ?_⟩
      · rintro (hd | ⟨before, pass, after, rfl, hd⟩)
        · exact ⟨[], first, xs, rfl, hd⟩
        · exact ⟨first :: before, pass, after, rfl, by rw [hgraph]; exact hd⟩
      · rintro ⟨before, pass, after, he, hd⟩
        rcases List.cons_eq_append_iff.1 he with ⟨rfl, he⟩ | ⟨before, rfl, rfl⟩
        · cases he
          exact .inl hd
        · rw [hgraph] at hd
          exact .inr ⟨before, pass, after, rfl, hd⟩

theorem nodup_standardPasses : (standardPasses s).Nodup :=
  List.Nodup.filter _ (by decide)

/-- **Why something is retained in the end**: a pass picked it when it started. -/
theorem isRetained_analyse_iff (hg : g.Ingested) (hnone : (analyse s g).failure = none)
    (hx : (analyse s g).graph.declaration? d = some x) (hext : x.kind.isExtension = false) :
    (analyse s g).graph.isRetained d = true ↔
      ∃ pass ∈ standardPasses s, d ∈ pass.picks s (whenStarts s g pass) := by
  have hempty : ¬ g.isRetained d = true := by
    rw [isRetained, isMarked_iff, hg.marks]
    exact List.not_mem_nil
  rw [analyse] at hx ⊢
  rw [isRetained_runPasses_iff hg.reachable.consistent hnone hx hext, or_iff_right hempty]
  -- a pass stands once in the list, so what stands before it is what ran before it
  have hstarts : ∀ {before pass after}, standardPasses s = before ++ pass :: after →
      whenStarts s g pass = (runPasses s g before).graph := by
    intro before pass after he
    have hnodup := nodup_standardPasses (s := s)
    rw [he, List.nodup_append] at hnodup
    have hbefore : ∀ p ∈ before, decide (p ≠ pass) = true := fun p hp =>
      decide_eq_true (hnodup.2.2 p hp pass List.mem_cons_self)
    rw [whenStarts, he, List.takeWhile_append_of_pos hbefore,
      List.takeWhile_cons_of_neg (by simp), List.append_nil]
  constructor
  · rintro ⟨before, pass, after, he, hd⟩
    exact ⟨pass, he ▸ List.mem_append_right _ List.mem_cons_self, by rw [hstarts he]; exact hd⟩
  · rintro ⟨pass, hpass, hd⟩
    obtain ⟨before, after, he⟩ := List.append_of_mem hpass
    exact ⟨before, pass, after, he, by rw [← hstarts he]; exact hd⟩

end Deadwood
