/-
`ComparisonGraph` (`src/Interpreters/ComparisonGraph.{h,cpp}`): what the constraints of a
table say about how two expressions compare.

The constraints are edges between expressions, from the greater to the lesser one. Expressions
that reach each other are equal, so the graph is replaced by the graph of its strongly
connected components; two components with constants get an edge from the greater to the lesser
constant. All pairs of components are then compared by the shortest paths, where a path is
strict if one of its edges is.

Expressions are identified by their hash; here they are a type with decidable equality.
Constants are compared by their values, which are in the domain of the expressions. The code is
a template over the two kinds of trees an expression can be given by, and so are the
definitions here over the type of expressions.

An assignment that satisfies the constraints gives every component a value, and what is
computed is related to these values step by step: the edges of the graph (`Represents`), the
matrix of paths, the constants next to a component. Each step is a fold, and what one iteration
keeps is all that is proved about it. The relation that `compare` names then holds between the
values of the two expressions.
-/
import ClickHouse.Core.Types
import ClickHouse.Lib.HashTable
import ClickHouse.Lib.Kosaraju

set_option autoImplicit false

namespace ClickHouse

open Lib List Function
open Option hiding mem_map

/-! ## Relations and atoms -/

/-- What is known of two expressions. -/
inductive ComparisonGraphCompareResult where
  | LESS
  | LESS_OR_EQUAL
  | EQUAL
  | GREATER_OR_EQUAL
  | GREATER
  | NOT_EQUAL
  | UNKNOWN
  deriving DecidableEq, Repr

/-- The functions that are looked for by their names. -/
inductive ComparisonFunction where
  | equals
  | notEquals
  | less
  | lessOrEquals
  | greaterOrEquals
  | greater
  | other
  deriving DecidableEq, Repr

/-- An atomic formula of the constraints. -/
inductive ComparisonAtom (Node : Type*) where
  | function (name : ComparisonFunction) (arguments : List Node)
  | other
  deriving DecidableEq, Repr

/-- `normalizeAtom`: `less` and `lessOrEquals` are turned round. -/
def normalizeAtom {Node : Type*} : ComparisonAtom Node → ComparisonAtom Node
  | .function .less [left, right] => .function .greater [right, left]
  | .function .lessOrEquals [left, right] => .function .greaterOrEquals [right, left]
  | atom => atom

/-! ## Graphs -/

inductive EdgeType where
  | GREATER
  | GREATER_OR_EQUAL
  | EQUAL
  deriving DecidableEq, Repr

/-- An edge says that the vertex it is from and the one it goes to are in the relation. -/
structure ComparisonEdge where
  type : EdgeType
  to_ : ℕ
  deriving DecidableEq, Repr

/-- Expressions that are considered equal. -/
structure EqualComponent (Node : Type*) where
  nodes : List Node
  constant_index : Option ℕ

/-- `GraphComponent`. -/
structure GraphComponent (Node : Type*) where
  node_hash_to_component : HashTable Node ℕ
  vertices : List (EqualComponent Node)
  edges : List (List ComparisonEdge)

namespace GraphComponent

variable {Node : Type*}

def empty : GraphComponent Node := ⟨∅, [], []⟩

variable (g : GraphComponent Node)

/-- `edges[v]`. -/
def edgesAt (v : ℕ) : List ComparisonEdge := g.edges[v]?.getD []

/-- The ends of the edges from a vertex. -/
def successors (v : ℕ) : List ℕ := (g.edgesAt v).map ComparisonEdge.to_

def addEdge (v : ℕ) (edge : ComparisonEdge) : GraphComponent Node :=
  { g with edges := g.edges.modify v (· ++ [edge]) }

variable [DecidableEq Node]

/-- A new vertex for an expression. -/
def addVertex (node : Node) : GraphComponent Node :=
  { node_hash_to_component := g.node_hash_to_component.insert node g.vertices.length
    vertices := g.vertices ++ [⟨[node], none⟩]
    edges := g.edges ++ [[]] }

/-- `get_index`: the vertex of an expression, which is added if it is new. -/
def getIndex (node : Node) (g : GraphComponent Node) : Option ℕ × GraphComponent Node :=
  match g.node_hash_to_component.lookup node with
  | some index =>
    let nodes := (g.vertices[index]?.map EqualComponent.nodes).getD []
    (if nodes.any (· = node) then some index else none, g)
  | none => (some g.vertices.length, g.addVertex node)

end GraphComponent

/-- `relation_to_enum`. -/
def relationToEnum : ComparisonFunction → Option EdgeType
  | .equals => some .EQUAL
  | .greater => some .GREATER
  | .greaterOrEquals => some .GREATER_OR_EQUAL
  | _ => none

section Build

variable {Node : Type*} [DecidableEq Node]

/-- The edges of one relation. -/
def addRelation (name : ComparisonFunction) (left right : ℕ) (g : GraphComponent Node) :
    GraphComponent Node :=
  match relationToEnum name with
  | none => g
  | some type =>
    let g := g.addEdge left ⟨type, right⟩
    if type = .EQUAL then g.addEdge right ⟨type, left⟩ else g

/-- The body of the first loop of the constructor. -/
def addAtom (g : GraphComponent Node) (atom : ComparisonAtom Node) : GraphComponent Node :=
  match normalizeAtom atom with
  | .function name [left, right] =>
    let (index_left, g) := g.getIndex left
    let (index_right, g) := g.getIndex right
    match index_left, index_right with
    | some index_left, some index_right => addRelation name index_left index_right g
    | _, _ => g
  | _ => g

/-- The graph with a vertex for each expression. -/
def nodesGraph (atomic_formulas : List (ComparisonAtom Node)) : GraphComponent Node :=
  atomic_formulas.foldl addAtom .empty

/-- `reverseGraph`, by what is pushed to each vertex. -/
def reverseGraph (g : GraphComponent Node) : GraphComponent Node :=
  { g with
    edges := (List.range g.vertices.length).map fun u =>
      (List.range g.vertices.length).flatMap fun v =>
        (g.edgesAt v).filterMap fun edge => if edge.to_ = u then some ⟨edge.type, v⟩ else none }

variable {D : Type*} [LinearOrder D] (constantValue : Node → Option D)

/-- `buildConstants`. -/
def EqualComponent.buildConstants (component : EqualComponent Node) : EqualComponent Node :=
  { component with
    constant_index := component.nodes.findIdx? fun node => (constantValue node).isSome }

variable (g : GraphComponent Node)

/-- `getConstantValue(vertices[v].getConstant())`, if `hasConstant()`. -/
def GraphComponent.constantAt (v : ℕ) : Option D :=
  g.vertices[v]?.bind fun component => component.constant_index.bind fun index =>
    component.nodes[index]?.bind constantValue

/-- `node_hash_to_component` and `vertices` of the graph of components. -/
def componentVertices (order : HashOrder Node ℕ) (g : GraphComponent Node) (components : ℕ → ℕ)
    (component : ℕ) : GraphComponent Node :=
  { node_hash_to_component := (order.walk g.node_hash_to_component).foldl
      (fun table entry => table.insert entry.1 (components entry.2)) ∅
    vertices := (List.range component).map fun k => EqualComponent.buildConstants constantValue
      { nodes := (order.walk g.node_hash_to_component).flatMap fun entry =>
          if components entry.2 = k then (g.vertices[entry.2]?.map EqualComponent.nodes).getD []
          else []
        constant_index := none }
    edges := [] }

/-- The edges of a component: those of its vertices, and those to lesser constants. -/
def componentEdges (g result : GraphComponent Node) (components : ℕ → ℕ) (k : ℕ) :
    List ComparisonEdge :=
  ((List.range g.vertices.length).flatMap fun v =>
      if components v = k then (g.edgesAt v).map fun edge => ⟨edge.type, components edge.to_⟩
      else []) ++
    (List.range result.vertices.length).filterMap fun u =>
      match result.constantAt constantValue k, result.constantAt constantValue u with
      | some left, some right => if k ≠ u ∧ right < left then some ⟨.GREATER, u⟩ else none
      | _, _ => none

/-- The graph of components. -/
def componentGraph (order : HashOrder Node ℕ) (g : GraphComponent Node) (components : ℕ → ℕ)
    (component : ℕ) : GraphComponent Node :=
  let result := componentVertices constantValue order g components component
  { result with
    edges := (List.range component).map (componentEdges constantValue g result components) }

/-- `buildGraphFromNodesGraph`; as many steps as there are vertices are enough for either
traversal. -/
def buildGraphFromNodesGraph (order : HashOrder Node ℕ) (g : GraphComponent Node) :
    Option (GraphComponent Node) :=
  let n := g.vertices.length
  (dfsOrderAll g.successors n (List.range n)).bind fun traversal =>
    (dfsComponentsAll (reverseGraph g).successors n traversal.order.reverse).map fun state =>
      componentGraph constantValue order g (fun v => (state.1 v).getD 0) state.2

/-! ## Paths -/

/-- `Path`: the relation of the two ends of a path, by its edges. -/
inductive ComparisonPath where
  | GREATER
  | GREATER_OR_EQUAL
  deriving DecidableEq, Repr

/-- The largest `Int8`, which stands for no path. -/
def infDist : ℤ := 127

/-- `results[v]` before the main loops: 0 for the vertex itself, -1 for a strict edge. -/
def initialRow (v : ℕ) : ℕ → ℤ :=
  (g.edgesAt v).foldl
    (fun row edge => Function.update row edge.to_
      (min (row edge.to_) (if edge.type = .GREATER then -1 else 0)))
    (Function.update (fun _ => infDist) v 0)

/-- The body of the main loops. -/
def relaxDist (k v u : ℕ) (results : ℕ → ℕ → ℤ) : ℕ → ℕ → ℤ :=
  if results v k ≠ infDist ∧ results k u ≠ infDist then
    Function.update results v (Function.update (results v) u
      (min (results v u) (min (results v k) (results k u))))
  else results

/-- `results` after the main loops. -/
def floydWarshall (n : ℕ) (results : ℕ → ℕ → ℤ) : ℕ → ℕ → ℤ :=
  (List.range n).foldl (fun results k =>
    (List.range n).foldl (fun results v =>
      (List.range n).foldl (fun results u => relaxDist k v u results) results) results) results

/-- `buildDistsFromGraph`: the map from pairs of vertices to paths. -/
def buildDistsFromGraph : ℕ × ℕ → Option ComparisonPath :=
  let n := g.vertices.length
  let results := floydWarshall n fun v => if v < n then initialRow g v else fun _ => infDist
  fun (v, u) =>
    if v < n ∧ u < n ∧ results v u ≠ infDist then
      some (if results v u = -1 then .GREATER else .GREATER_OR_EQUAL)
    else none

/-- `lower` and `upper`, where -1 is `none`. -/
structure ConstBounds where
  lower : ℕ → Option ℕ
  upper : ℕ → Option ℕ

/-- Whether a constant takes the place of the one that is there. -/
def replacesBound (better : D → D → Bool) (constant : D) (path : ComparisonPath)
    (previous : Option D) : Bool :=
  match previous with
  | none => true
  | some previous => better constant previous || (constant = previous && path = .GREATER)

/-- The body of the loop of `buildConstBounds`. -/
def updateConstBounds (bounds : ConstBounds)
    (entry : (ℕ × ℕ) × ComparisonPath) : ConstBounds :=
  let ((from_, to_), path) := entry
  -- `from_` is not below `to_`, where a constant is a lower bound of it
  let bounds :=
    match g.constantAt constantValue to_ with
    | none => bounds
    | some constant =>
      if replacesBound (fun a b => b < a) constant path
          ((bounds.lower from_).bind (g.constantAt constantValue)) then
        { bounds with lower := Function.update bounds.lower from_ (some to_) }
      else bounds
  -- and a constant at `from_` is an upper bound of `to_`
  match g.constantAt constantValue from_ with
  | none => bounds
  | some constant =>
    if replacesBound (fun a b => a < b) constant path
        ((bounds.upper to_).bind (g.constantAt constantValue)) then
      { bounds with upper := Function.update bounds.upper to_ (some from_) }
    else bounds

/-- The entries of the map, in its order. -/
def distEntries (n : ℕ) (dists : ℕ × ℕ → Option ComparisonPath) : List ((ℕ × ℕ) × ComparisonPath) :=
  (List.range n).flatMap fun v => (List.range n).filterMap fun u =>
    (dists (v, u)).map fun path => ((v, u), path)

/-- `buildConstBounds`. -/
def buildConstBounds (dists : ℕ × ℕ → Option ComparisonPath) : ConstBounds :=
  (distEntries g.vertices.length dists).foldl (updateConstBounds constantValue g)
    ⟨fun _ => none, fun _ => none⟩

end Build

/-! ## `ComparisonGraph` -/

/-- The graph of the components, with what has been found of their relations. -/
structure ComparisonGraph (Node : Type*) where
  graph : GraphComponent Node
  dists : ℕ × ℕ → Option ComparisonPath
  not_equal : List (ℕ × ℕ)
  bounds : ConstBounds

namespace ComparisonGraph

variable {Node D : Type*} [DecidableEq Node] [LinearOrder D] (constantValue : Node → Option D)

/-- The two pairs that an atom adds to `not_equal`, or an exception. -/
def unequalComponents (nodeToString : ComparisonAtom Node → Bytes) (graph : GraphComponent Node)
    (atom_raw : ComparisonAtom Node) : Except Exception (List (ℕ × ℕ)) :=
  let atom := normalizeAtom atom_raw
  match atom with
  | .function name [left, right] =>
    if name = .notEquals ∨ name = .greater then
      let index_left := (graph.node_hash_to_component.lookup left).getD 0
      let index_right := (graph.node_hash_to_component.lookup right).getD 0
      if index_left = index_right then
        .error ⟨.VIOLATED_CONSTRAINT, str "Found expression '" ++ nodeToString atom ++
          str "', but its arguments considered equal according to constraints"⟩
      else .ok [(index_left, index_right), (index_right, index_left)]
    else .ok []
  | _ => .ok []

/-- The constructor. -/
def build (nodeToString : ComparisonAtom Node → Bytes) (order : HashOrder Node ℕ)
    (atomic_formulas : List (ComparisonAtom Node)) :
    Option (Except Exception (ComparisonGraph Node)) :=
  if atomic_formulas.isEmpty then
    some (.ok ⟨.empty, fun _ => none, [], ⟨fun _ => none, fun _ => none⟩⟩)
  else
    (buildGraphFromNodesGraph constantValue order (nodesGraph atomic_formulas)).map fun graph =>
      let dists := buildDistsFromGraph graph
      (atomic_formulas.mapM (unequalComponents nodeToString graph)).map fun pairs =>
        ⟨graph, dists, pairs.flatten, buildConstBounds constantValue graph dists⟩

variable (cg : ComparisonGraph Node)

/-- `pathToCompareResult`. -/
def pathToCompareResult (path : ComparisonPath) (inverse : Bool) : ComparisonGraphCompareResult :=
  match path with
  | .GREATER => if inverse then .LESS else .GREATER
  | .GREATER_OR_EQUAL => if inverse then .LESS_OR_EQUAL else .GREATER_OR_EQUAL

/-- A path between components that are known to differ is strict. -/
def findPath (start finish : ℕ) : Option ComparisonPath :=
  (cg.dists (start, finish)).map fun path =>
    if (start, finish) ∈ cg.not_equal then .GREATER else path

/-- `getConstUpperBound`: the constant, and whether the expression is less than it. -/
def getConstUpperBound (node : Node) : Option (D × Bool) :=
  match constantValue node with
  | some constant => some (constant, false)
  | none =>
    (cg.graph.node_hash_to_component.lookup node).bind fun to_ =>
      (cg.bounds.upper to_).bind fun from_ =>
        (cg.graph.constantAt constantValue from_).map fun constant =>
          (constant, cg.dists (from_, to_) = some .GREATER)

/-- `getConstLowerBound`. -/
def getConstLowerBound (node : Node) : Option (D × Bool) :=
  match constantValue node with
  | some constant => some (constant, false)
  | none =>
    (cg.graph.node_hash_to_component.lookup node).bind fun from_ =>
      (cg.bounds.lower from_).bind fun to_ =>
        (cg.graph.constantAt constantValue to_).map fun constant =>
          (constant, cg.dists (from_, to_) = some .GREATER)

/-- The first block for an expression that is not in the graph. -/
def compareLowerToUpper (left right : Node) (result : ComparisonGraphCompareResult) :
    ComparisonGraphCompareResult :=
  match cg.getConstLowerBound constantValue left, cg.getConstUpperBound constantValue right with
  | some left_bound, some right_bound =>
    if right_bound.1 < left_bound.1 then .GREATER
    else if left_bound.1 = right_bound.1 then
      if left_bound.2 || right_bound.2 then .GREATER else .GREATER_OR_EQUAL
    else result
  | _, _ => result

/-- The second one. -/
def compareUpperToLower (left right : Node) (result : ComparisonGraphCompareResult) :
    ComparisonGraphCompareResult :=
  match cg.getConstUpperBound constantValue left, cg.getConstLowerBound constantValue right with
  | some left_bound, some right_bound =>
    if left_bound.1 < right_bound.1 then .LESS
    else if left_bound.1 = right_bound.1 then
      if left_bound.2 || right_bound.2 then .LESS else .LESS_OR_EQUAL
    else result
  | _, _ => result

/-- `compare`: by a path one way or the other, or by constant bounds. -/
def compare (left right : Node) : ComparisonGraphCompareResult :=
  match cg.graph.node_hash_to_component.lookup left,
    cg.graph.node_hash_to_component.lookup right with
  | some start, some finish =>
    if start = finish then .EQUAL
    else
      match cg.findPath start finish with
      | some path => pathToCompareResult path false
      | none =>
        match cg.findPath finish start with
        | some path => pathToCompareResult path true
        | none => if (start, finish) ∈ cg.not_equal then .NOT_EQUAL else .UNKNOWN
  -- a node that is not in the graph is compared by constant bounds
  | _, _ => cg.compareUpperToLower constantValue left right
      (cg.compareLowerToUpper constantValue left right .UNKNOWN)

open ComparisonGraphCompareResult in
/-- `possible_pairs` of `isPossibleCompare`. -/
def possiblePairs : List (ComparisonGraphCompareResult × ComparisonGraphCompareResult) :=
  [(EQUAL, LESS_OR_EQUAL), (EQUAL, GREATER_OR_EQUAL), (LESS_OR_EQUAL, LESS),
    (LESS_OR_EQUAL, EQUAL), (LESS_OR_EQUAL, NOT_EQUAL), (GREATER_OR_EQUAL, GREATER),
    (GREATER_OR_EQUAL, EQUAL), (GREATER_OR_EQUAL, NOT_EQUAL), (LESS, LESS),
    (LESS, LESS_OR_EQUAL), (LESS, NOT_EQUAL), (GREATER, GREATER), (GREATER, GREATER_OR_EQUAL),
    (GREATER, NOT_EQUAL), (NOT_EQUAL, LESS), (NOT_EQUAL, GREATER), (NOT_EQUAL, LESS_OR_EQUAL),
    (NOT_EQUAL, GREATER_OR_EQUAL)]

/-- Whether the relation can hold; it can if nothing is known. -/
def isPossibleCompare (expected : ComparisonGraphCompareResult) (left right : Node) : Bool :=
  let result := cg.compare constantValue left right
  if expected = .UNKNOWN ∨ result = .UNKNOWN then true
  else if expected = result then true
  else (expected, result) ∈ possiblePairs

open ComparisonGraphCompareResult in
/-- `possible_pairs` of `isAlwaysCompare`. -/
def alwaysPairs : List (ComparisonGraphCompareResult × ComparisonGraphCompareResult) :=
  [(LESS_OR_EQUAL, LESS), (LESS_OR_EQUAL, EQUAL), (GREATER_OR_EQUAL, GREATER),
    (GREATER_OR_EQUAL, EQUAL), (NOT_EQUAL, GREATER), (NOT_EQUAL, LESS)]

/-- Whether the relation holds always; it does not if nothing is known. -/
def isAlwaysCompare (expected : ComparisonGraphCompareResult) (left right : Node) : Bool :=
  let result := cg.compare constantValue left right
  if expected = .UNKNOWN ∨ result = .UNKNOWN then false
  else if expected = result then true
  else (expected, result) ∈ alwaysPairs

end ComparisonGraph

/-! ## What the relations mean -/

section Graph

variable {Node D : Type*} [LinearOrder D]

/-- What a result says of two values; `UNKNOWN` says nothing. -/
def ComparisonGraphCompareResult.Holds : ComparisonGraphCompareResult → D → D → Prop
  | LESS, a, b => a < b
  | LESS_OR_EQUAL, a, b => a ≤ b
  | EQUAL, a, b => a = b
  | GREATER_OR_EQUAL, a, b => b ≤ a
  | GREATER, a, b => b < a
  | NOT_EQUAL, a, b => a ≠ b
  | UNKNOWN, _, _ => True

/-- A function of another name is no comparison, and nothing is asked of it. -/
def ComparisonFunction.Holds : ComparisonFunction → D → D → Prop
  | equals, a, b => a = b
  | notEquals, a, b => a ≠ b
  | less, a, b => a < b
  | lessOrEquals, a, b => a ≤ b
  | greaterOrEquals, a, b => b ≤ a
  | greater, a, b => b < a
  | other, _, _ => True

/-- The assignment satisfies the constraint. -/
def ComparisonAtom.Holds (value : Node → D) : ComparisonAtom Node → Prop
  | .function name [left, right] => name.Holds (value left) (value right)
  | _ => True

/-- What an edge says of the values of its ends. -/
def EdgeType.Holds : EdgeType → D → D → Prop
  | GREATER, a, b => b < a
  | GREATER_OR_EQUAL, a, b => b ≤ a
  | EQUAL, a, b => a = b

/-- What a path says of the values of its ends. -/
def ComparisonPath.Holds : ComparisonPath → D → D → Prop
  | GREATER, a, b => b < a
  | GREATER_OR_EQUAL, a, b => b ≤ a

lemma EdgeType.Holds.le {type : EdgeType} {a b : D} (h : type.Holds a b) : b ≤ a := by
  cases type with
  | GREATER => exact le_of_lt h
  | GREATER_OR_EQUAL => exact h
  | EQUAL => exact le_of_eq (Eq.symm h)

lemma ComparisonPath.Holds.le {path : ComparisonPath} {a b : D} (h : path.Holds a b) : b ≤ a := by
  cases path with
  | GREATER => exact le_of_lt h
  | GREATER_OR_EQUAL => exact h

variable {atom : ComparisonAtom Node}

lemma normalizeAtom_holds {value : Node → D}
    (h : atom.Holds value) : (normalizeAtom atom).Holds value := by
  unfold normalizeAtom
  split
  · exact h
  · exact h
  · exact h

variable {name : ComparisonFunction}

lemma relationToEnum_holds {type : EdgeType}
    (hname : relationToEnum name = some type) {a b : D} (h : name.Holds a b) : type.Holds a b := by
  cases name <;> cases hname <;> exact h

/-! ## The graph of expressions -/

/-- The values that an assignment gives to the vertices: those of their expressions, and the
edges hold between them. -/
structure Represents [DecidableEq Node] (value : Node → D) (val : ℕ → D)
    (g : GraphComponent Node) : Prop where
  node : ∀ node i, g.node_hash_to_component.lookup node = some i → value node = val i
  vertex : ∀ i component, g.vertices[i]? = some component →
    ∀ node ∈ component.nodes, value node = val i
  edge : ∀ v, ∀ edge ∈ g.edgesAt v, edge.type.Holds (val v) (val edge.to_)

/-- Vertices are what the table and the edges refer to. -/
structure GraphComponent.Bounded [DecidableEq Node] (g : GraphComponent Node) : Prop where
  length_edges : g.edges.length = g.vertices.length
  lookup : ∀ node i, g.node_hash_to_component.lookup node = some i →
    ∃ component, g.vertices[i]? = some component ∧ node ∈ component.nodes
  to_lt : ∀ v, ∀ edge ∈ g.edgesAt v, edge.to_ < g.vertices.length

namespace GraphComponent

variable {g : GraphComponent Node}

lemma mem_edgesAt_addEdge {v w : ℕ} {edge edge' : ComparisonEdge}
    (h : edge' ∈ (g.addEdge v edge).edgesAt w) : edge' ∈ g.edgesAt w ∨ w = v ∧ edge' = edge := by
  rw [edgesAt, addEdge, getElem?_modify] at h
  rw [edgesAt]
  cases hw : g.edges[w]? with
  | none => simp [hw] at h
  | some edges =>
    by_cases heq : v = w
    · simp only [hw, heq, Option.map_eq_map, map_some, if_true, getD_some,
        mem_append, mem_singleton] at h
      exact h.imp_right fun h => ⟨heq.symm, h⟩
    · simp only [hw, heq, Option.map_eq_map, map_some, if_false, getD_some] at h
      exact .inl h

end GraphComponent

open GraphComponent

variable [DecidableEq Node] {value : Node → D} {val : ℕ → D} {g : GraphComponent Node}

variable {edge : ComparisonEdge} {v : ℕ}

lemma Represents.addEdge (h : Represents value val g)
    (hedge : edge.type.Holds (val v) (val edge.to_)) : Represents value val (g.addEdge v edge) := by
  refine ⟨h.node, h.vertex, fun w edge' hmem => ?_⟩
  rcases mem_edgesAt_addEdge hmem with hmem | ⟨rfl, rfl⟩
  · exact h.edge w edge' hmem
  · exact hedge

lemma GraphComponent.Bounded.addEdge (h : g.Bounded) (v : ℕ)
    (hedge : edge.to_ < g.vertices.length) : (g.addEdge v edge).Bounded := by
  refine ⟨?_, h.lookup, fun w edge' hmem => ?_⟩
  · rw [GraphComponent.addEdge, length_modify]
    exact h.length_edges
  · rcases mem_edgesAt_addEdge hmem with hmem | ⟨-, rfl⟩
    · exact h.to_lt w edge' hmem
    · exact hedge

variable {node : Node}

lemma GraphComponent.Bounded.lt_of_lookup (h : g.Bounded) {i : ℕ}
    (hi : g.node_hash_to_component.lookup node = some i) : i < g.vertices.length := by
  obtain ⟨component, hget, -⟩ := h.lookup node i hi
  exact (List.getElem?_eq_some_iff.1 hget).1

lemma GraphComponent.Bounded.lt_of_mem_edgesAt (h : g.Bounded)
    (hmem : edge ∈ g.edgesAt v) : v < g.vertices.length := by
  rw [← h.length_edges]
  by_contra hv
  rw [edgesAt, getElem?_eq_none (not_lt.1 hv)] at hmem
  cases hmem

lemma represents_empty (value : Node → D) (val : ℕ → D) : Represents value val .empty where
  node := by simp [empty]
  vertex := by simp [empty]
  edge := by simp [empty, edgesAt]

lemma bounded_empty : (empty : GraphComponent Node).Bounded where
  length_edges := rfl
  lookup := by simp [empty]
  to_lt := by simp [empty, edgesAt]

/-- What is in the graph stays there. -/
def GraphComponent.Extends (g g' : GraphComponent Node) : Prop :=
  ∀ node i, g.node_hash_to_component.lookup node = some i →
    g'.node_hash_to_component.lookup node = some i

lemma edgesAt_addVertex (g : GraphComponent Node) (node : Node) (v : ℕ) :
    (g.addVertex node).edgesAt v = g.edgesAt v := by
  rw [edgesAt, edgesAt, addVertex]
  rcases lt_trichotomy v g.edges.length with hlt | rfl | hgt
  · rw [getElem?_append_left hlt]
  · rw [getElem?_concat_length, getElem?_eq_none le_rfl]
    rfl
  · rw [getElem?_eq_none (by simpa using hgt), getElem?_eq_none hgt.le]

lemma extends_addVertex (hnone : g.node_hash_to_component.lookup node = none) :
    g.Extends (g.addVertex node) := by
  intro a i hi
  have hne : a ≠ node := by grind
  exact (AList.lookup_insert_ne hne).trans hi

lemma GraphComponent.Bounded.addVertex (hb : g.Bounded) (node : Node) :
    (g.addVertex node).Bounded := by
  refine ⟨?_, fun a i hi => ?_, fun v edge hmem => ?_⟩
  · simp only [GraphComponent.addVertex, length_append, hb.length_edges, length_singleton]
  · rcases HashTable.of_lookup_insert hi with ⟨rfl, rfl⟩ | ⟨-, hi⟩
    · exact ⟨_, getElem?_concat_length, mem_singleton_self a⟩
    · obtain ⟨component, hget, hmem⟩ := hb.lookup a i hi
      have hlt := (List.getElem?_eq_some_iff.1 hget).1
      exact ⟨component, (getElem?_append_left hlt).trans hget, hmem⟩
  · rw [edgesAt_addVertex] at hmem
    refine (hb.to_lt v edge hmem).trans_le ?_
    simp only [GraphComponent.addVertex, length_append, Nat.le_add_right]

variable (hr : Represents value val g)

section

include hr

/-- A new vertex has the value of its expression. -/
lemma Represents.addVertex (hb : g.Bounded) (node : Node) :
    Represents value (Function.update val g.vertices.length (value node)) (g.addVertex node) := by
  -- the vertices that were there keep their values
  have hold : ∀ {i}, i < g.vertices.length →
      update val g.vertices.length (value node) i = val i := fun hi =>
    update_of_ne hi.ne _ _
  refine ⟨fun a i hi => ?_, fun i component hget a hmem => ?_, fun v edge hmem => ?_⟩
  · rcases HashTable.of_lookup_insert hi with ⟨rfl, rfl⟩ | ⟨-, hi⟩
    · rw [update_self]
    · rw [hold (hb.lt_of_lookup hi)]
      exact hr.node a i hi
  · rcases lt_trichotomy i g.vertices.length with hlt | rfl | hgt
    · rw [hold hlt]
      exact hr.vertex i component ((getElem?_append_left hlt).symm.trans hget) a hmem
    · obtain rfl := some.inj (getElem?_concat_length.symm.trans hget)
      rw [mem_singleton.1 hmem, update_self]
    · have hnone : (g.addVertex node).vertices[i]? = none :=
        getElem?_eq_none (by simpa [GraphComponent.addVertex] using hgt)
      rw [hnone] at hget
      cases hget
  · rw [edgesAt_addVertex] at hmem
    rw [hold (hb.lt_of_mem_edgesAt hmem), hold (hb.to_lt v edge hmem)]
    exact hr.edge v edge hmem

/-- `get_index` finds a vertex for the expression. -/
lemma getIndex_spec (hb : g.Bounded) (node : Node) :
    ∃ i g' val', g.getIndex node = (some i, g') ∧ Represents value val' g' ∧ g'.Bounded ∧
      g'.node_hash_to_component.lookup node = some i ∧ g.Extends g' := by
  cases hlookup : g.node_hash_to_component.lookup node with
  | some i =>
    obtain ⟨component, hget, hmem⟩ := hb.lookup node i hlookup
    refine ⟨i, g, val, ?_, hr, hb, hlookup, fun _ _ h => h⟩
    simp only [getIndex, hlookup, hget, map_some, getD_some]
    rw [if_pos (any_eq_true.2 ⟨node, hmem, decide_eq_true rfl⟩)]
  | none =>
    refine ⟨_, g.addVertex node, _, ?_, hr.addVertex hb node, hb.addVertex node,
      AList.lookup_insert _, extends_addVertex hlookup⟩
    simp only [getIndex, hlookup]

/-- The edges of a relation that holds. -/
lemma addRelation_spec (hb : g.Bounded)
    {left right : Node} (hname : name.Holds (value left) (value right))
    {i j : ℕ} (hi : g.node_hash_to_component.lookup left = some i)
    (hj : g.node_hash_to_component.lookup right = some j) :
    Represents value val (addRelation name i j g) ∧ (addRelation name i j g).Bounded ∧
      g.Extends (addRelation name i j g) := by
  rw [hr.node left i hi, hr.node right j hj] at hname
  rw [addRelation]
  cases htype : relationToEnum name with
  | none => exact ⟨hr, hb, fun _ _ h => h⟩
  | some type =>
    have hedge : type.Holds (val i) (val j) := relationToEnum_holds htype hname
    have hr' : Represents value val (g.addEdge i ⟨type, j⟩) := hr.addEdge hedge
    have hb' : (g.addEdge i ⟨type, j⟩).Bounded := hb.addEdge i (hb.lt_of_lookup hj)
    dsimp only
    split_ifs with hequal
    · -- an equality is an edge in both directions
      subst hequal
      exact ⟨hr'.addEdge (Eq.symm hedge), hb'.addEdge j (hb.lt_of_lookup hi), fun _ _ h => h⟩
    · exact ⟨hr', hb', fun _ _ h => h⟩

end

/-- Both expressions of a comparison have a vertex. -/
def GraphComponent.Knows (g : GraphComponent Node) (atom : ComparisonAtom Node) : Prop :=
  ∀ name left right, normalizeAtom atom = .function name [left, right] →
    (∃ i, g.node_hash_to_component.lookup left = some i) ∧
      ∃ j, g.node_hash_to_component.lookup right = some j

lemma GraphComponent.Knows.mono {g' : GraphComponent Node}
    (h : g.Knows atom) (hext : g.Extends g') : g'.Knows atom := by
  intro name left right hatom
  obtain ⟨⟨i, hi⟩, j, hj⟩ := h name left right hatom
  exact ⟨⟨i, hext left i hi⟩, j, hext right j hj⟩

include hr in
/-- **One constraint.** -/
theorem addAtom_spec (hb : g.Bounded) (hatom : atom.Holds value) :
    ∃ val', Represents value val' (addAtom g atom) ∧ (addAtom g atom).Bounded ∧
      g.Extends (addAtom g atom) ∧ (addAtom g atom).Knows atom := by
  have hnormal := normalizeAtom_holds hatom
  unfold addAtom GraphComponent.Knows
  split
  · rename_i name left right heq
    rw [heq] at hnormal ⊢
    obtain ⟨i, g₁, val₁, hget₁, hr₁, hb₁, hi, hext₁⟩ := getIndex_spec hr hb left
    obtain ⟨j, g₂, val₂, hget₂, hr₂, hb₂, hj, hext₂⟩ := getIndex_spec hr₁ hb₁ right
    obtain ⟨hr₃, hb₃, hext₃⟩ := addRelation_spec hr₂ hb₂ hnormal (hext₂ left i hi) hj
    simp only [hget₁, hget₂]
    refine ⟨val₂, hr₃, hb₃, fun a k hk => hext₃ a k (hext₂ a k (hext₁ a k hk)), ?_⟩
    intro name' left' right' heq'
    obtain ⟨-, rfl, rfl, -⟩ := heq'
    exact ⟨⟨i, hext₃ left i (hext₂ left i hi)⟩, j, hext₃ right j hj⟩
  · rename_i hno
    exact ⟨val, hr, hb, fun _ _ h => h, fun name left right heq => absurd heq (hno name left right)⟩

/-- **The graph of expressions.** -/
theorem nodesGraph_spec [Nonempty D] {atoms : List (ComparisonAtom Node)}
    (hatoms : ∀ atom ∈ atoms, atom.Holds value) :
    ∃ val, Represents value val (nodesGraph atoms) ∧ (nodesGraph atoms).Bounded ∧
      ∀ atom ∈ atoms, (nodesGraph atoms).Knows atom := by
  -- the induction is over the atoms, from any graph on
  suffices h : ∀ (g : GraphComponent Node) (val : ℕ → D), Represents value val g → g.Bounded →
      ∃ val', Represents value val' (atoms.foldl addAtom g) ∧ (atoms.foldl addAtom g).Bounded ∧
        g.Extends (atoms.foldl addAtom g) ∧ ∀ atom ∈ atoms, (atoms.foldl addAtom g).Knows atom by
    obtain ⟨d⟩ := ‹Nonempty D›
    obtain ⟨val, hr, hb, -, hknows⟩ := h .empty (fun _ => d) (represents_empty _ _) bounded_empty
    exact ⟨val, hr, hb, hknows⟩
  induction atoms with
  | nil => exact fun g val hr hb => ⟨val, hr, hb, fun _ _ h => h, by simp⟩
  | cons atom atoms ih =>
    intro g val hr hb
    obtain ⟨hatom, hatoms⟩ := forall_mem_cons.1 hatoms
    obtain ⟨val₁, hr₁, hb₁, hext₁, hknows₁⟩ := addAtom_spec hr hb hatom
    obtain ⟨val₂, hr₂, hb₂, hext₂, hknows₂⟩ := ih hatoms (addAtom g atom) val₁ hr₁ hb₁
    exact ⟨val₂, hr₂, hb₂, fun a i hi => hext₂ a i (hext₁ a i hi),
      forall_mem_cons.2 ⟨hknows₁.mono hext₂, hknows₂⟩⟩

/-! ## The graph of components -/

/-- A path goes from greater values to lesser ones. -/
lemma Represents.le_of_reaches (h : Represents value val g) {u v : ℕ}
    (hreach : Reaches g.successors u v) : val v ≤ val u := by
  induction hreach with
  | refl => exact le_rfl
  | tail _ hstep ih =>
    obtain ⟨edge, hmem, rfl⟩ := mem_map.1 hstep
    exact (h.edge _ edge hmem).le.trans ih

/-- The reversed graph has each edge the other way round. -/
lemma mem_successors_reverseGraph (hb : g.Bounded) (x y : ℕ) :
    x ∈ (reverseGraph g).successors y ↔ y ∈ g.successors x := by
  have hedges : (reverseGraph g).edgesAt y =
      if y < g.vertices.length then
        (range g.vertices.length).flatMap fun v =>
          (g.edgesAt v).filterMap fun edge => if edge.to_ = y then some ⟨edge.type, v⟩ else none
      else [] := by
    rw [edgesAt, reverseGraph, getElem?_map]
    split_ifs with hy
    · rw [getElem?_range hy]
      rfl
    · rw [getElem?_eq_none (by simpa using hy)]
      rfl
  rw [successors, successors, hedges, mem_map, mem_map]
  constructor
  · rintro ⟨edge, hmem, rfl⟩
    split_ifs at hmem with hy
    · obtain ⟨v, -, hmem⟩ := mem_flatMap.1 hmem
      obtain ⟨edge', hmem', heq⟩ := mem_filterMap.1 hmem
      split_ifs at heq with hto
      obtain rfl := some.inj heq
      exact ⟨edge', hmem', hto⟩
    · cases hmem
  · rintro ⟨edge, hmem, rfl⟩
    refine ⟨⟨edge.type, x⟩, ?_, rfl⟩
    rw [if_pos (hb.to_lt x edge hmem), mem_flatMap]
    exact ⟨x, mem_range.2 (hb.lt_of_mem_edgesAt hmem), mem_filterMap.2 ⟨edge, hmem, if_pos rfl⟩⟩

include hr in
/-- **The traversals give each vertex a component, and vertices of one component the same
value.** -/
theorem components_spec (hb : g.Bounded) :
    ∃ traversal state, dfsOrderAll g.successors g.vertices.length (range g.vertices.length) =
        some traversal ∧
      dfsComponentsAll (reverseGraph g).successors g.vertices.length traversal.order.reverse =
        some state ∧
      ∀ u < g.vertices.length, ∀ v < g.vertices.length,
        (state.1 u).getD 0 = (state.1 v).getD 0 → val u = val v := by
  -- both traversals stay among the vertices
  have hU : ∀ x ∈ Finset.range g.vertices.length, ∀ y ∈ g.successors x,
      y ∈ Finset.range g.vertices.length := by
    intro x _ y hy
    obtain ⟨edge, hmem, rfl⟩ := mem_map.1 hy
    exact Finset.mem_range.2 (hb.to_lt x edge hmem)
  have hU' : ∀ x ∈ Finset.range g.vertices.length, ∀ y ∈ (reverseGraph g).successors x,
      y ∈ Finset.range g.vertices.length := by
    intro x _ y hy
    obtain ⟨edge, hmem, -⟩ := mem_map.1 ((mem_successors_reverseGraph hb y x).1 hy)
    exact Finset.mem_range.2 (hb.lt_of_mem_edgesAt hmem)
  have hcard : (Finset.range g.vertices.length).card ≤ g.vertices.length := (Finset.card_range _).le
  have hrange : ∀ v ∈ range g.vertices.length, v ∈ Finset.range g.vertices.length := fun v hv =>
    Finset.mem_range.2 (mem_range.1 hv)
  obtain ⟨traversal, horder, hfinish, hsub, hall⟩ := dfsOrderAll_spec hU hrange hcard
  obtain ⟨state, hstate, hgood, hassigned⟩ := dfsComponentsAll_spec (mem_successors_reverseGraph hb)
    hU' hfinish hsub (fun x hx => hall x (mem_range.2 (Finset.mem_range.1 hx))) hcard
  refine ⟨traversal, state, horder, hstate, fun u hu v hv heq => ?_⟩
  obtain ⟨k, -, hu⟩ := hassigned u (Finset.mem_range.2 hu)
  obtain ⟨k', -, hv⟩ := hassigned v (Finset.mem_range.2 hv)
  rw [hu, hv] at heq
  obtain rfl : k = k' := heq
  -- vertices of one component reach each other, so their values are equal
  exact le_antisymm (hr.le_of_reaches (hgood.reaches v u k hv hu))
    (hr.le_of_reaches (hgood.reaches u v k hu hv))

/-- The table that is filled from the entries of another one. -/
lemma lookup_foldl_insert {entries : List (Σ _ : Node, ℕ)}
    (hnodup : (entries.map Sigma.fst).Nodup) (f : ℕ → ℕ) (table : HashTable Node ℕ) (node : Node)
    (k : ℕ) :
    (entries.foldl (fun table entry => table.insert entry.1 (f entry.2)) table).lookup node =
        some k ↔
      (∃ i, ⟨node, i⟩ ∈ entries ∧ f i = k) ∨
        node ∉ entries.map Sigma.fst ∧ table.lookup node = some k := by
  induction entries generalizing table with
  | nil => simp
  | cons entry entries ih =>
    obtain ⟨a, i⟩ := entry
    rw [map_cons, nodup_cons] at hnodup
    rw [foldl_cons, ih hnodup.2]
    by_cases hnode : node = a
    · subst hnode
      have hnot : ∀ j, ⟨node, j⟩ ∉ entries := fun j hj =>
        hnodup.1 (mem_map.2 ⟨_, hj, rfl⟩)
      simp [hnot, hnodup.1, AList.lookup_insert]
    · simp [AList.lookup_insert_ne hnode, hnode]

section Components

variable {constantValue : Node → Option D} {order : HashOrder Node ℕ} {components : ℕ → ℕ}
  {component : ℕ}

lemma lookup_componentGraph {k : ℕ} :
    (componentGraph constantValue order g components component).node_hash_to_component.lookup node =
        some k ↔
      ∃ i, g.node_hash_to_component.lookup node = some i ∧ components i = k := by
  refine (lookup_foldl_insert (HashTable.nodup_walk order g.node_hash_to_component) components ∅
    node k).trans ?_
  simp only [HashTable.mem_walk_iff, AList.lookup_empty, reduceCtorEq, and_false, or_false]

include hr in
/-- The constants of a component have its value. -/
lemma Represents.constantAt
    (hconst : ∀ node c, constantValue node = some c → value node = c) {c : D}
    (h : g.constantAt constantValue v = some c) : val v = c := by
  simp only [GraphComponent.constantAt, bind_eq_some_iff] at h
  obtain ⟨component, hget, index, -, node, hnode, hc⟩ := h
  rw [← hr.vertex v component hget node (mem_of_getElem? hnode)]
  exact hconst node c hc

include hr in
/-- **The graph of components.** -/
theorem componentGraph_spec (hb : g.Bounded)
    (hconst : ∀ node c, constantValue node = some c → value node = c)
    (hequal : ∀ u < g.vertices.length, ∀ v < g.vertices.length,
      components u = components v → val u = val v) (order : HashOrder Node ℕ) (component : ℕ) :
    ∃ val', Represents value val' (componentGraph constantValue order g components component) := by
  -- The value of a component is that of any of its vertices.
  obtain ⟨val', hval'⟩ : ∃ val' : ℕ → D, ∀ v < g.vertices.length, val' (components v) = val v := by
    refine ⟨fun k => if h : ∃ v < g.vertices.length, components v = k then val h.choose else val 0,
      fun v hv => ?_⟩
    have hex : ∃ u < g.vertices.length, components u = components v := ⟨v, hv, rfl⟩
    exact (dif_pos hex).trans (hequal _ hex.choose_spec.1 v hv hex.choose_spec.2)
  have hnode : ∀ node k, (componentGraph constantValue order g components
      component).node_hash_to_component.lookup node = some k → value node = val' k := by
    intro node k hk
    obtain ⟨i, hi, rfl⟩ := lookup_componentGraph.1 hk
    rw [hval' i (hb.lt_of_lookup hi)]
    exact hr.node node i hi
  have hvertex : ∀ k comp, (componentVertices constantValue order g components
      component).vertices[k]? = some comp → ∀ node ∈ comp.nodes, value node = val' k := by
    intro k comp hget node hmem
    rw [componentVertices, getElem?_map, map_eq_some_iff] at hget
    obtain ⟨k', hk', rfl⟩ := hget
    obtain ⟨hk, rfl⟩ := List.getElem?_eq_some_iff.1 hk'
    rw [getElem_range] at hmem
    obtain ⟨entry, -, hmem⟩ := mem_flatMap.1 hmem
    split_ifs at hmem with hentry
    · cases hvertex : g.vertices[entry.2]? with
      | none =>
        rw [hvertex] at hmem
        cases hmem
      | some component =>
        rw [hvertex] at hmem
        rw [← hentry, hval' _ (List.getElem?_eq_some_iff.1 hvertex).1]
        exact hr.vertex _ component hvertex node hmem
    · cases hmem
  have hresult : Represents value val' (componentVertices constantValue order g components
      component) := ⟨hnode, hvertex, by simp [componentVertices, edgesAt]⟩
  refine ⟨val', hnode, hvertex, fun k edge hmem => ?_⟩
  rw [edgesAt, componentGraph, getElem?_map] at hmem
  cases hk : (range component)[k]? with
  | none =>
    rw [hk] at hmem
    cases hmem
  | some k' =>
    obtain ⟨hlt, rfl⟩ := List.getElem?_eq_some_iff.1 hk
    rw [hk, getElem_range, map_some, getD_some, componentEdges, mem_append] at hmem
    rcases hmem with hmem | hmem
    · obtain ⟨v, -, hmem⟩ := mem_flatMap.1 hmem
      split_ifs at hmem with hv
      · obtain ⟨edge, hedge, rfl⟩ := mem_map.1 hmem
        rw [← hv, hval' v (hb.lt_of_mem_edgesAt hedge), hval' _ (hb.to_lt v edge hedge)]
        exact hr.edge v edge hedge
      · cases hmem
    · obtain ⟨u, -, hmem⟩ := mem_filterMap.1 hmem
      split at hmem
      · rename_i left right hleft hright
        split_ifs at hmem with hlt
        obtain rfl := some.inj hmem
        rw [hresult.constantAt hconst hleft, hresult.constantAt hconst hright]
        exact hlt.2
      · cases hmem

end Components

include hr in
/-- **`buildGraphFromNodesGraph`.** -/
theorem buildGraphFromNodesGraph_spec (hb : g.Bounded)
    {constantValue : Node → Option D}
    (hconst : ∀ node c, constantValue node = some c → value node = c)
    (order : HashOrder Node ℕ) :
    ∃ graph val', buildGraphFromNodesGraph constantValue order g = some graph ∧
      Represents value val' graph ∧
      ∀ node i, g.node_hash_to_component.lookup node = some i →
        ∃ k, graph.node_hash_to_component.lookup node = some k := by
  obtain ⟨traversal, state, horder, hstate, hequal⟩ := components_spec hr hb
  obtain ⟨val', hr'⟩ := componentGraph_spec hr hb hconst hequal order state.2
  refine ⟨_, val', ?_, hr', fun node i hi => ⟨_, lookup_componentGraph.2 ⟨i, hi, rfl⟩⟩⟩
  simp only [buildGraphFromNodesGraph, horder, bind_some, hstate, map_some]

/-! ## Paths between components -/

/-- What an entry of the matrix says. -/
def EntrySound (val : ℕ → D) (v u : ℕ) (entry : ℤ) : Prop :=
  (entry = -1 → val u < val v) ∧ (entry ≠ infDist → val u ≤ val v)

def DistSound (val : ℕ → D) (results : ℕ → ℕ → ℤ) : Prop := ∀ v u, EntrySound val v u (results v u)

lemma entrySound_inf (val : ℕ → D) (v u : ℕ) : EntrySound val v u infDist :=
  ⟨nofun, fun h => absurd rfl h⟩

variable {v u : ℕ}

lemma EntrySound.min {x y : ℤ} (hx : EntrySound val v u x) (hy : EntrySound val v u y) :
    EntrySound val v u (min x y) := by
  rcases min_choice x y with h | h <;> rwa [h]

/-- A path by way of another vertex. -/
lemma EntrySound.trans {v k u : ℕ} {x y : ℤ} (hx : EntrySound val v k x)
    (hy : EntrySound val k u y) (hfinite : x ≠ infDist ∧ y ≠ infDist) :
    EntrySound val v u (Min.min x y) := by
  have hvk := hx.2 hfinite.1
  have hku := hy.2 hfinite.2
  exact EntrySound.min ⟨fun h => hku.trans_lt (hx.1 h), fun _ => hku.trans hvk⟩
    ⟨fun h => (hy.1 h).trans_le hvk, fun _ => hku.trans hvk⟩

include hr in
lemma initialRow_sound (v : ℕ) :
    ∀ u, EntrySound val v u (initialRow g v u) := by
  refine foldlRecOn (motive := fun row : ℕ → ℤ => ∀ u, EntrySound val v u (row u)) _ _
    ?_ fun row hrow edge hmem => ?_
  · exact (forall_update_iff _ fun u => EntrySound val v u).2
      ⟨⟨nofun, fun _ => le_rfl⟩, fun u _ => entrySound_inf val v u⟩
  have hedge := hr.edge v edge hmem
  refine (forall_update_iff _ fun u => EntrySound val v u).2
    ⟨(hrow edge.to_).min ⟨fun h => ?_, fun _ => hedge.le⟩, fun u _ => hrow u⟩
  split_ifs at h with htype
  rw [htype] at hedge
  exact hedge

variable {results : ℕ → ℕ → ℤ}

lemma relaxDist_sound (h : DistSound val results) (k v u : ℕ) :
    DistSound val (relaxDist k v u results) := by
  rw [relaxDist]
  split_ifs with hfinite
  · refine (forall_update_iff _ fun a (row : ℕ → ℤ) => ∀ b, EntrySound val a b (row b)).2
      ⟨(forall_update_iff _ fun b => EntrySound val v b).2 ⟨?_, fun b _ => h v b⟩, fun a _ => h a⟩
    exact (h v u).min ((h v k).trans (h k u) hfinite)
  · exact h

lemma floydWarshall_sound (h : DistSound val results) (n : ℕ) :
    DistSound val (floydWarshall n results) := by
  refine foldlRecOn _ _ h fun results h k _ => ?_
  refine foldlRecOn _ _ h fun results h v _ => ?_
  exact foldlRecOn _ _ h fun results h u _ => relaxDist_sound h k v u

variable {path : ComparisonPath}

include hr in
/-- **Every path holds.** -/
theorem buildDistsFromGraph_sound
    (h : buildDistsFromGraph g (v, u) = some path) : path.Holds (val v) (val u) := by
  have hinit : DistSound val fun v =>
      if v < g.vertices.length then initialRow g v else fun _ => infDist := by
    intro v u
    dsimp only
    split_ifs
    · exact initialRow_sound hr v u
    · exact entrySound_inf val v u
  have hsound := floydWarshall_sound hinit g.vertices.length v u
  rw [buildDistsFromGraph] at h
  dsimp only at h
  split_ifs at h with hfinite hstrict
  · obtain rfl := some.inj h
    exact hsound.1 hstrict
  · obtain rfl := some.inj h
    exact hsound.2 hfinite.2.2

/-! ## Constants next to a component -/

variable {constantValue : Node → Option D} {dists : ℕ × ℕ → Option ComparisonPath}
  {entry : (ℕ × ℕ) × ComparisonPath}

lemma mem_distEntries {n : ℕ}
    (h : entry ∈ distEntries n dists) : dists entry.1 = some entry.2 := by
  obtain ⟨v, -, h⟩ := mem_flatMap.1 h
  obtain ⟨u, -, h⟩ := mem_filterMap.1 h
  obtain ⟨path, hpath, rfl⟩ := map_eq_some_iff.1 h
  exact hpath

/-- There is a path from an upper bound, and to a lower one. -/
structure ConstBounds.Sound (dists : ℕ × ℕ → Option ComparisonPath) (bounds : ConstBounds) :
    Prop where
  lower : ∀ from_ to_, bounds.lower from_ = some to_ → ∃ path, dists (from_, to_) = some path
  upper : ∀ from_ to_, bounds.upper to_ = some from_ → ∃ path, dists (from_, to_) = some path

variable {bounds : ConstBounds}

lemma of_update_eq_some {f : ℕ → Option ℕ} {P : ℕ → ℕ → Prop} (h : ∀ a b, f a = some b → P a b)
    (hvu : P v u) (a b : ℕ) (hab : update f v (some u) a = some b) : P a b := by
  grind [update_apply]

omit [DecidableEq Node] in
/-- A bound that is taken over comes from a path to a constant. -/
lemma updateConstBounds_sound (h : bounds.Sound dists) (hentry : dists entry.1 = some entry.2) :
    (updateConstBounds constantValue g bounds entry).Sound dists := by
  obtain ⟨⟨v, u⟩, path⟩ := entry
  rw [updateConstBounds]
  -- The lower bound of `v` first, then the upper bound of `u`.
  have hlower : ConstBounds.Sound dists
      (match g.constantAt constantValue u with
      | none => bounds
      | some constant =>
        if replacesBound (fun a b => b < a) constant path
            ((bounds.lower v).bind (g.constantAt constantValue)) then
          { bounds with lower := update bounds.lower v (some u) }
        else bounds) := by
    split
    · exact h
    · split_ifs
      · exact ⟨of_update_eq_some h.lower ⟨path, hentry⟩, h.upper⟩
      · exact h
  split
  · exact hlower
  · split_ifs
    · exact ⟨hlower.lower, fun a b => of_update_eq_some (fun b a => hlower.upper a b)
        ⟨path, hentry⟩ b a⟩
    · exact hlower

omit [DecidableEq Node] in
lemma buildConstBounds_sound : (buildConstBounds constantValue g dists).Sound dists := by
  refine foldlRecOn _ _ ⟨?_, ?_⟩ fun bounds h entry hentry =>
    updateConstBounds_sound h (mem_distEntries hentry)
  · simp
  · simp

end Graph

/-! ## Soundness -/

namespace ComparisonGraph

variable {Node D : Type*} [DecidableEq Node] [LinearOrder D] {constantValue : Node → Option D}
  {value : Node → D} {val : ℕ → D} {cg : ComparisonGraph Node}

/-- Everything in the graph holds under the assignment. -/
structure Sound (value : Node → D) (val : ℕ → D) (cg : ComparisonGraph Node) : Prop where
  graph : Represents value val cg.graph
  dists : ∀ v u path, cg.dists (v, u) = some path → path.Holds (val v) (val u)
  not_equal : ∀ v u, (v, u) ∈ cg.not_equal → val v ≠ val u
  bounds : cg.bounds.Sound cg.dists

variable {path : ComparisonPath}

lemma Sound.findPath (h : cg.Sound value val) {v u : ℕ}
    (hpath : cg.findPath v u = some path) : path.Holds (val v) (val u) := by
  obtain ⟨path', hdist, hpath⟩ := map_eq_some_iff.1 hpath
  have hholds := h.dists v u path' hdist
  split_ifs at hpath with hne
  · subst hpath
    exact lt_of_le_of_ne hholds.le (h.not_equal v u hne).symm
  · subst hpath
    exact hholds

variable {a b : D}

lemma path_lt_of_strict (h : path.Holds a b)
    (hstrict : decide (some path = some ComparisonPath.GREATER) = true) : b < a := by
  obtain rfl := some.inj (of_decide_eq_true hstrict)
  exact h

section

variable {node : Node} (h : cg.Sound value val)
  (hconst : ∀ node c, constantValue node = some c → value node = c)
include h hconst

lemma Sound.getConstUpperBound {bound : D × Bool}
    (hbound : cg.getConstUpperBound constantValue node = some bound) :
    value node ≤ bound.1 ∧ (bound.2 = true → value node < bound.1) := by
  rw [ComparisonGraph.getConstUpperBound] at hbound
  split at hbound
  · rename_i c hc
    obtain rfl := some.inj hbound
    exact ⟨(hconst node c hc).le, nofun⟩
  obtain ⟨u, hu, hbound⟩ := bind_eq_some_iff.1 hbound
  obtain ⟨v, hv, hbound⟩ := bind_eq_some_iff.1 hbound
  obtain ⟨c, hc, rfl⟩ := map_eq_some_iff.1 hbound
  obtain ⟨path, hpath⟩ := h.bounds.upper v u hv
  have hholds := h.dists v u path hpath
  rw [h.graph.node node u hu, ← h.graph.constantAt hconst hc, hpath]
  exact ⟨hholds.le, path_lt_of_strict hholds⟩

lemma Sound.getConstLowerBound {bound : D × Bool}
    (hbound : cg.getConstLowerBound constantValue node = some bound) :
    bound.1 ≤ value node ∧ (bound.2 = true → bound.1 < value node) := by
  rw [ComparisonGraph.getConstLowerBound] at hbound
  split at hbound
  · rename_i c hc
    obtain rfl := some.inj hbound
    exact ⟨(hconst node c hc).ge, nofun⟩
  obtain ⟨v, hv, hbound⟩ := bind_eq_some_iff.1 hbound
  obtain ⟨u, hu, hbound⟩ := bind_eq_some_iff.1 hbound
  obtain ⟨c, hc, rfl⟩ := map_eq_some_iff.1 hbound
  obtain ⟨path, hpath⟩ := h.bounds.lower v u hu
  have hholds := h.dists v u path hpath
  rw [h.graph.node node v hv, ← h.graph.constantAt hconst hc, hpath]
  exact ⟨hholds.le, path_lt_of_strict hholds⟩

end

/-- Two bounds around equal or ordered constants. -/
lemma lt_or_le_of_bounds {upper lower : D × Bool}
    (hupper : a ≤ upper.1 ∧ (upper.2 = true → a < upper.1))
    (hlower : lower.1 ≤ b ∧ (lower.2 = true → lower.1 < b)) :
    (upper.1 < lower.1 → a < b) ∧
      (upper.1 = lower.1 → a ≤ b ∧ ((upper.2 || lower.2) = true → a < b)) := by
  refine ⟨fun hlt => (hupper.1.trans_lt hlt).trans_le hlower.1, fun heq => ⟨?_, fun hstrict => ?_⟩⟩
  · exact hupper.1.trans (heq.le.trans hlower.1)
  · rcases Bool.or_eq_true_iff.1 hstrict with hstrict | hstrict
    · exact (hupper.2 hstrict).trans_le (heq.le.trans hlower.1)
    · exact (hupper.1.trans heq.le).trans_lt (hlower.2 hstrict)

section

variable {left right : Node} {result : ComparisonGraphCompareResult} (h : cg.Sound value val)
  (hconst : ∀ node c, constantValue node = some c → value node = c)
  (hresult : result.Holds (value left) (value right))
include h hconst hresult

lemma Sound.compareLowerToUpper :
    (cg.compareLowerToUpper constantValue left right result).Holds (value left) (value right) := by
  unfold ComparisonGraph.compareLowerToUpper
  split
  · rename_i left_bound right_bound hleft hright
    obtain ⟨hlt, heq⟩ := lt_or_le_of_bounds (h.getConstUpperBound hconst hright)
      (h.getConstLowerBound hconst hleft)
    split_ifs with h₁ h₂ h₃
    · exact hlt h₁
    · exact (heq h₂.symm).2 (Bool.or_comm _ _ ▸ h₃)
    · exact (heq h₂.symm).1
    · exact hresult
  · exact hresult

lemma Sound.compareUpperToLower :
    (cg.compareUpperToLower constantValue left right result).Holds (value left) (value right) := by
  unfold ComparisonGraph.compareUpperToLower
  split
  · rename_i left_bound right_bound hleft hright
    obtain ⟨hlt, heq⟩ := lt_or_le_of_bounds (h.getConstUpperBound hconst hleft)
      (h.getConstLowerBound hconst hright)
    split_ifs with h₁ h₂ h₃
    · exact hlt h₁
    · exact (heq h₂).2 h₃
    · exact (heq h₂).1
    · exact hresult
  · exact hresult

end

/-- **`compare` names a relation that holds.** -/
theorem Sound.compare (h : cg.Sound value val)
    (hconst : ∀ node c, constantValue node = some c → value node = c) (left right : Node) :
    (cg.compare constantValue left right).Holds (value left) (value right) := by
  unfold ComparisonGraph.compare
  split
  · rename_i start finish hstart hfinish
    rw [h.graph.node left start hstart, h.graph.node right finish hfinish]
    by_cases heq : start = finish
    · rw [if_pos heq, heq]
      exact rfl
    rw [if_neg heq]
    split
    · -- a path from left to right
      rename_i path hpath
      have hholds := h.findPath hpath
      cases path <;> exact hholds
    split
    · -- a path from right to left
      rename_i path hpath
      have hholds := h.findPath hpath
      cases path <;> exact hholds
    · split_ifs with hne
      · exact h.not_equal start finish hne
      · trivial
  · exact h.compareUpperToLower hconst (h.compareLowerToUpper hconst trivial)

/-- What a constraint adds to `not_equal`, when it holds. -/
lemma unequalComponents_spec (nodeToString : ComparisonAtom Node → Bytes)
    {graph : GraphComponent Node} (hr : Represents value val graph) {atom : ComparisonAtom Node}
    (hknows : graph.Knows atom) (hatom : atom.Holds value) :
    ∃ pairs, unequalComponents nodeToString graph atom = .ok pairs ∧
      ∀ v u, (v, u) ∈ pairs → val v ≠ val u := by
  have hnormal := normalizeAtom_holds hatom
  unfold unequalComponents
  dsimp only
  split
  · rename_i name left right heq
    obtain ⟨⟨i, hi⟩, j, hj⟩ := hknows name left right heq
    rw [heq] at hnormal
    rw [hi, hj, getD_some, getD_some]
    -- only these two say that the sides differ
    by_cases hname : name = .notEquals ∨ name = .greater
    · have hne : val i ≠ val j := by
        have hholds : name.Holds (value left) (value right) := hnormal
        rw [hr.node left i hi, hr.node right j hj] at hholds
        rcases hname with rfl | rfl
        · exact hholds
        · exact ne_of_gt hholds
      -- the components are two, and the pair is stored in both orders
      have hij : i ≠ j := fun h => hne (congrArg val h)
      rw [if_pos hname, if_neg hij]
      refine ⟨_, rfl, fun v u hmem => ?_⟩
      simp only [mem_cons, Prod.mk.injEq, not_mem_nil, or_false] at hmem
      rcases hmem with ⟨rfl, rfl⟩ | ⟨rfl, rfl⟩
      · exact hne
      · exact hne.symm
    · rw [if_neg hname]
      exact ⟨[], rfl, by simp⟩
  · exact ⟨[], rfl, by simp⟩

lemma mapM_ok {β γ ε : Type*} {f : β → Except ε γ} {P : γ → Prop} {l : List β}
    (h : ∀ b ∈ l, ∃ c, f b = .ok c ∧ P c) : ∃ cs, l.mapM f = .ok cs ∧ ∀ c ∈ cs, P c := by
  induction l with
  | nil => exact ⟨[], rfl, by simp⟩
  | cons b l ih =>
    obtain ⟨⟨c, hc, hP⟩, hl⟩ := forall_mem_cons.1 h
    obtain ⟨cs, hcs, hPs⟩ := ih hl
    refine ⟨c :: cs, ?_, forall_mem_cons.2 ⟨hP, hPs⟩⟩
    rw [mapM_cons, hc, hcs]
    rfl

/-- **The constructor succeeds, and what it builds is sound.** -/
theorem build_spec [Nonempty D] (nodeToString : ComparisonAtom Node → Bytes)
    (order : HashOrder Node ℕ) (hconst : ∀ node c, constantValue node = some c → value node = c)
    {atoms : List (ComparisonAtom Node)} (hatoms : ∀ atom ∈ atoms, atom.Holds value) :
    ∃ cg val, build constantValue nodeToString order atoms = some (.ok cg) ∧
      cg.Sound value val := by
  by_cases hempty : atoms.isEmpty = true
  · -- without constraints there is nothing to be sound about
    obtain ⟨d⟩ := ‹Nonempty D›
    refine ⟨_, fun _ => d, if_pos hempty, represents_empty _ _, by simp, by simp, ?_⟩
    exact ⟨by simp, by simp⟩
  obtain ⟨val₀, hr₀, hb₀, hknows₀⟩ := nodesGraph_spec hatoms
  obtain ⟨graph, val, hgraph, hr, hlookup⟩ := buildGraphFromNodesGraph_spec hr₀ hb₀ hconst order
  have hknows : ∀ atom ∈ atoms, graph.Knows atom := by
    intro atom hatom name left right heq
    obtain ⟨⟨i, hi⟩, j, hj⟩ := hknows₀ atom hatom name left right heq
    exact ⟨hlookup left i hi, hlookup right j hj⟩
  obtain ⟨pairs, hpairs, hne⟩ := mapM_ok fun atom hatom =>
    unequalComponents_spec nodeToString hr (hknows atom hatom) (hatoms atom hatom)
  refine ⟨⟨graph, buildDistsFromGraph graph, pairs.flatten,
    buildConstBounds constantValue graph (buildDistsFromGraph graph)⟩, val, ?_, hr,
    fun v u path hpath => buildDistsFromGraph_sound hr hpath, ?_, buildConstBounds_sound⟩
  · rw [build, if_neg hempty, hgraph, map_some, hpairs]
    rfl
  · intro v u hmem
    obtain ⟨ps, hps, hmem⟩ := mem_flatten.1 hmem
    exact hne ps hps v u hmem

/-! ## The tables of pairs -/

variable {expected result : ComparisonGraphCompareResult}

open ComparisonGraphCompareResult in
/-- Each pair of `isAlwaysCompare` is an implication. -/
lemma holds_of_alwaysPairs (h : (expected, result) ∈ alwaysPairs) (hresult : result.Holds a b) :
    expected.Holds a b := by
  simp only [alwaysPairs, mem_cons, Prod.mk.injEq, not_mem_nil, or_false] at h
  rcases h with ⟨rfl, rfl⟩ | ⟨rfl, rfl⟩ | ⟨rfl, rfl⟩ | ⟨rfl, rfl⟩ | ⟨rfl, rfl⟩ | ⟨rfl, rfl⟩
  · exact le_of_lt hresult
  · exact le_of_eq hresult
  · exact le_of_lt hresult
  · exact le_of_eq (Eq.symm hresult)
  · exact ne_of_gt hresult
  · exact ne_of_lt hresult

open ComparisonGraphCompareResult in
/-- The two pairs that `isPossibleCompare` does not have: both hold of equal values. -/
def MissingPair (expected result : ComparisonGraphCompareResult) : Prop :=
  expected = LESS_OR_EQUAL ∧ result = GREATER_OR_EQUAL ∨
    expected = GREATER_OR_EQUAL ∧ result = LESS_OR_EQUAL

/-- All other pairs of relations that can hold together are there. -/
lemma possible_iff (hexpected : expected.Holds a b) (hresult : result.Holds a b) :
    (if expected = .UNKNOWN ∨ result = .UNKNOWN then true
      else if expected = result then true else decide ((expected, result) ∈ possiblePairs)) = true ↔
      ¬ MissingPair expected result := by
  -- Over all pairs of relations: never true together, in the table, or one of the two.
  cases expected <;> cases result <;> first
    | (simp only [ComparisonGraphCompareResult.Holds] at hexpected hresult; order)
    | exact iff_of_true (by decide) (by simp [MissingPair])
    | exact iff_of_false (by decide) (by simp [MissingPair])

/-! ## Main result -/

/-- The assignment satisfies the constraints, and constants have their values. -/
def Model (constantValue : Node → Option D) (atomic_formulas : List (ComparisonAtom Node))
    (value : Node → D) : Prop :=
  (∀ node c, constantValue node = some c → value node = c) ∧
    ∀ atom ∈ atomic_formulas, atom.Holds value

end ComparisonGraph

end ClickHouse
