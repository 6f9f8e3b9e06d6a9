import SceneSearch.Scene.Path
import SceneSearch.Scene.Walk

/-!
# Outlines

A document or a part of it as an indented list: one line for each node with its mark, name and id,
four spaces for each level. With a depth limit, the nodes at the limit tell how many children they
have instead of showing them.
-/

namespace SceneSearch.Spot

/-- Four spaces for each level. -/
def margin (depth : Nat) : String := String.ofList (List.replicate (4 * depth) ' ')

/-- The line of a node. -/
def outlineLine (s : Spot) (depth : Nat) : String :=
  margin depth ++ "- " ++ s.label ++ " (" ++ s.id ++ ")" ++
    (if s.visible then "" else " [hidden]") ++ "\n"

/-- The line that stands for the children of a node at the limit. -/
def cutLine (s : Spot) (depth : Nat) : String :=
  match s.children.length with
  | 0 => ""
  | count =>
    margin (depth + 1) ++ "- ... (" ++ toString count ++ " more " ++
      (if count = 1 then "child" else "children") ++ ", id=" ++ s.id ++ ")\n"

/-- Whether a level is the last one that is shown. -/
def isCut (limit : Option Int) (depth : Nat) : Bool := limit == some (depth : Int)

/-- The lines of a node at a level, those of its children apart. -/
def outlineLines (limit : Option Int) (s : Spot) (depth : Nat) : String :=
  if isCut limit depth then s.outlineLine depth ++ s.cutLine depth else s.outlineLine depth

/-- The children of a node at a level that are shown, with their level. -/
def outlineBelow (limit : Option Int) (s : Spot) (depth : Nat) : List (Spot × Nat) :=
  if isCut limit depth then [] else s.children.map (·, depth + 1)

/-- The outline of a node: `limit` is the number of levels below it that are shown, all of them
without one. A negative limit is never reached. -/
def outline (start : Spot) (limit : Option Int) : String :=
  String.join (walk (fun a ↦ a.1.outlineBelow limit a.2) (fun a ↦ some [a.1.outlineLines limit a.2])
    start.steps [(start, 0)])

end SceneSearch.Spot
