/-
  RefineCheck.Space.Dot

  The reachable part of a space as a graph description: states are labelled with their
  values, edges with the inputs they keep.
-/

import RefineCheck.Space

namespace RefineCheck.Space

/-- The name of the node in the graph. -/
def dotNode (n : NodeId) : String := if n = root then "root" else s!"s{n}"

/-- The line of a stored state. -/
def dotState (s : Space) (n : NodeId) : String :=
  match s.states[n]? with
  | some state => "  " ++ dotNode n ++ " [label=" ++ Text.quote (s!"{n}: " ++ state.text) ++ "];\n"
  | none => ""

/-- The line of an edge, with its input. -/
def dotEdge (n : NodeId) (id : StateId) (input : Record) : String :=
  "  " ++ dotNode n ++ " -> " ++ dotNode id ++ " [label=" ++ Text.quote input.text ++ "];\n"

/-- Each reachable node, the nearest first, followed by the edges that leave it. -/
def dot (s : Space) : String :=
  let node (n : NodeId) : String :=
    s.dotState n ++ String.join ((s.successors.getD n {}).toList.map fun e => dotEdge n e.1 e.2)
  "digraph space \x7b\n  root [shape=point];\n" ++ String.join (s.reachable.map node) ++ "\x7d\n"

end RefineCheck.Space
