import SceneSearch.Proofs.Query.Rank

/-!
# Stopping at the first match

`--f` behind a query stands in its last piece and counts for the whole query: every segment ends at
its first match, no segment picks by rank, and nothing is chosen at the end. Which pieces become
segments, what a segment looks for and where the search starts stay the same, so the plan is that of
the query with each segment cut short: `parseQuery_append_first`.
-/

namespace SceneSearch

/-- The segment that ends at its first match. -/
def SegmentPlan.untilFirst (segment : SegmentPlan) : SegmentPlan :=
  { segment with pick := none, stopAtFirst := true }

theorem Modifier.spells_firstOverall : Spells " --f" .firstOverall :=
  ⟨rfl, by decide, by decide, rfl⟩

namespace QueryPlan

open Modifier

variable {query : String} {plan : QueryPlan}

/-- The plan whose segments end at their first match. -/
def untilFirst (plan : QueryPlan) (raw : String) : QueryPlan :=
  { plan with
    raw
    segments := plan.segments.map SegmentPlan.untilFirst
    modifiers := { plan.modifiers with firstOverall := true }
    finalPick := none }

private theorem segmentsOf_firstOverall (m : QueryModifiers) (isFirst : Bool)
    (placed : List PlacedPiece) :
    segmentsOf { m with firstOverall := true } isFirst placed =
      (segmentsOf m isFirst placed).map SegmentPlan.untilFirst := by
  induction placed generalizing isFirst with
  | nil => rfl
  | cons p rest ih =>
    rw [segmentsOf, segmentsOf, List.map_cons, ih]
    rfl

private theorem modifiersOf_marked_firstOverall (init : List CleanPiece) (p : CleanPiece) :
    modifiersOf (init ++ [p.marked .firstOverall]) =
      { modifiersOf (init ++ [p]) with firstOverall := true } := by
  simp [modifiersOf, CleanPiece.marked, lastIndex?, lastIndexEach?]

/-- **A query with `--f` behind it** has the plan of the query, with its segments cut short. -/
theorem parseQuery_append_first (hplan : parseQuery query = .ok plan)
    (hclosed : Even (query.toList.count '"')) :
    parseQuery (query ++ " --f") = .ok (plan.untilFirst (query ++ " --f")) := by
  obtain ⟨pieces, hpieces, rfl⟩ := exists_ofPieces hplan
  obtain ⟨init, p, rfl, hmarked⟩ :=
    cleanPieces_append_suffix spells_firstOverall hpieces hclosed
  obtain ⟨childSearch, front, hleading⟩ := exists_leading_concat init
  rw [parseQuery_eq, hmarked]
  refine congrArg Except.ok ?_
  rw [ofPieces_eq, ofPieces_eq, hleading, hleading, modifiersOf_marked_firstOverall, assembled,
    assembled, untilFirst, segmentsOf_firstOverall, segmentsOf_arrange_marked]
  dsimp only
  cases (modifiersOf (init ++ [p])).index <;> rfl

end QueryPlan

end SceneSearch
