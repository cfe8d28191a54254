/-
The Set request of Keeper: `preprocess` for a `ZooKeeperSetRequest` and `commit` of its deltas
(`src/src/Coordination/KeeperStorage.cpp`), `parentNodePath`
(`src/src/Coordination/KeeperCommon.cpp`).

A request is preprocessed against the uncommitted state, and its deltas are committed after
those of all requests before it. So what the uncommitted state shows to `preprocess` is what
the container holds when the deltas are committed, and `Storage` stands for both. A version is
an `int32_t`, and counting past its maximum is undefined. The response and the digests are left
out, and so are the deltas that a Set does not have.

A Set has three deltas: the data, the statistics of the node and those of its parent. The
third is made from the parent as it was before the other two. The parent of the root is the
root (`parent_eq_self_iff`), and there the third delta takes back what the second one did.
Everywhere else the two nodes differ and the deltas do not meet.
-/
import ClickHouse.Core.Types

set_option autoImplicit false

namespace ClickHouse.Keeper

open List Function Option

/-! ## Paths -/

/-- The last slash of the first `i` bytes. -/
def lastSlashBelow (path : Bytes) : ℕ → Option ℕ
  | 0 => none
  | i + 1 => if path[i]? = some (ch '/') then some i else lastSlashBelow path i

/-- `none` is `npos`. -/
def findLastSlash (path : Bytes) : Option ℕ := lastSlashBelow path path.length

/-- Without a slash the result has `npos` bytes. -/
def parentNodePath (path : Bytes) : Eval Bytes :=
  match findLastSlash path with
  | none => .error .undefined_behaviour
  | some 0 => .ok [ch '/']
  | some (i + 1) => .ok (path.take (i + 1))

/-- What `matchPath` tells of a path. -/
inductive PathMatchResult where
  | NOT_MATCH
  | EXACT
  | IS_CHILD
  deriving DecidableEq

/-- A trailing slash does not count. -/
def removeLastSlash (path : Bytes) : Bytes :=
  if path.getLast? = some (ch '/') then path.dropLast else path

/-- `matchPath`: a path is a child only if a slash follows. -/
def matchPath (path match_to : Bytes) : PathMatchResult :=
  let path := removeLastSlash path
  let match_to := removeLastSlash match_to
  if match_to.isPrefixOf path then
    match path[match_to.length]? with
    | none => .EXACT
    | some byte => if byte = ch '/' then .IS_CHILD else .NOT_MATCH
  else .NOT_MATCH

/-- The nodes of the system, which no request may set. -/
def keeper_system_path : Bytes := "/keeper".toList.map ch

/-! ## Nodes -/

/-- `ephemeral_or_children_data` is the union of the owner and the numbers of the children. -/
structure NodeStats where
  czxid : ℤ
  mzxid : ℤ
  pzxid : ℤ
  mtime : ℤ
  version : ℤ
  cversion : ℤ
  aversion : ℤ
  data_size : ℕ
  is_ephemeral : Bool
  ctime : ℤ
  ephemeral_or_children_data : ℤ
  deriving DecidableEq

/-- `data` is the buffer; how much of it is the data, `data_size` says. -/
structure Node where
  stats : NodeStats
  data : Bytes
  acl_id : ℕ
  children : List Bytes
  deriving DecidableEq

namespace Node

variable (node : Node)

/-- `none` reads behind the buffer. -/
def getData : Option Bytes :=
  if node.stats.data_size ≤ node.data.length then some (node.data.take node.stats.data_size)
  else none

/-- `setData`. The size is a `uint32_t`, so that data of 4 GiB and more is cut. -/
def setData (new_data : Bytes) : Node :=
  let data_size := new_data.length % 2 ^ 32
  { node with
    stats := { node.stats with data_size := data_size }
    data := if data_size ≠ 0 then new_data.take data_size else node.data }

/-- `node.stats = stats`. -/
def setStats (stats : NodeStats) : Node := { node with stats := stats }

/-- What a reader sees of a node. -/
def content : Option Bytes × NodeStats × ℕ × List Bytes :=
  (node.getData, node.stats, node.acl_id, node.children)

end Node

/-- The nodes of the storage. The parent of a node is there. -/
structure Storage where
  container : Bytes → Option Node
  closed : ∀ path, (container path).isSome = true →
    ∃ parent, parentNodePath path = .ok parent ∧ (container parent).isSome = true

/-! ## The request -/

/-- The errors of a set request. -/
inductive SetError where
  | ZBADARGUMENTS
  | ZNONODE
  | ZBADVERSION
  deriving DecidableEq

/-- What preprocessing leaves for the commit. -/
inductive Delta where
  | UpdateNodeDataDelta (path new_data : Bytes) (version : ℤ)
  | UpdateNodeStatDelta (path : Bytes) (new_stats : NodeStats) (version : ℤ)
  | ErrorDelta (error : SetError)

/-- A set request; the version -1 stands for any. -/
structure SetRequest where
  path : Bytes
  data : Bytes
  version : ℤ

/-- The increment of an `int32_t`. -/
def incrementInt32 (n : ℤ) : Eval ℤ :=
  if n < 2 ^ 31 - 1 then .ok (n + 1) else .error .undefined_behaviour

/-- The new statistics of the node, with its new version. -/
def SetRequest.newStats (request : SetRequest) (stats : NodeStats) (version zxid time : ℤ) :
    NodeStats :=
  { stats with
    version := version
    mzxid := zxid
    mtime := time
    data_size := request.data.length % 2 ^ 32 }

/-- `preprocess`: an error, or the new data with the new stats of the node. -/
def preprocess (getNode : Bytes → Option Node) (request : SetRequest) (zxid time : ℤ) :
    Eval (List Delta) :=
  if matchPath request.path keeper_system_path ≠ .NOT_MATCH then
    .ok [.ErrorDelta .ZBADARGUMENTS]
  else
    match getNode request.path with
    | none => .ok [.ErrorDelta .ZNONODE]
    | some node =>
      if request.version ≠ -1 ∧ request.version ≠ node.stats.version then
        .ok [.ErrorDelta .ZBADVERSION]
      else do
        let version ← incrementInt32 node.stats.version
        let parent_path ← parentNodePath request.path
        match getNode parent_path with
        | none => .error .undefined_behaviour
        | some parent =>
          let cversion ← incrementInt32 parent.stats.cversion
          return [.UpdateNodeDataDelta request.path request.data request.version,
            .UpdateNodeStatDelta request.path (request.newStats node.stats version zxid time)
              request.version,
            .UpdateNodeStatDelta parent_path { parent.stats with cversion := cversion } (-1)]

/-- The update of a node; `none` is `onStorageInconsistency`. -/
def updateNode (container : Bytes → Option Node) (path : Bytes) (version : ℤ)
    (update_node : Node → Node) : Option (Bytes → Option Node) :=
  match container path with
  | none => none
  | some node =>
    if version ≠ -1 ∧ version ≠ node.stats.version then none
    else some (Function.update container path (some (update_node node)))

/-- The container after the deltas, and the error that ended them. -/
def commit (container : Bytes → Option Node) :
    List Delta → Option ((Bytes → Option Node) × Option SetError)
  | [] => some (container, none)
  | .ErrorDelta error :: _ => some (container, some error)
  | .UpdateNodeDataDelta path new_data version :: rest =>
    (updateNode container path version fun node => node.setData new_data).bind (commit · rest)
  | .UpdateNodeStatDelta path new_stats version :: rest =>
    (updateNode container path version fun node => node.setStats new_stats).bind (commit · rest)

/-! ## What it does -/

lemma lastSlashBelow_lt {path : Bytes} {n i : ℕ} (h : lastSlashBelow path n = some i) : i < n := by
  induction n with
  | zero => cases h
  | succ n ih =>
    rw [lastSlashBelow] at h
    split_ifs at h
    · cases h
      exact Nat.lt_succ_self _
    · exact (ih h).trans (Nat.lt_succ_self n)

/-- Only the root is its own parent. -/
lemma parent_eq_self_iff {path parent : Bytes} (h : parentNodePath path = .ok parent) :
    parent = path ↔ path = [ch '/'] := by
  rw [parentNodePath] at h
  split at h
  · cases h
  · cases h
    exact eq_comm
  · rename_i i hi
    cases h
    have hlt : i + 1 < path.length := lastSlashBelow_lt hi
    refine iff_of_false (fun heq => ?_) fun heq => ?_
    · have := congrArg length heq
      rw [length_take] at this
      omega
    · rw [heq, length_singleton] at hlt
      omega

/-- What the node should be after a Set. -/
def SetRequest.written (request : SetRequest) (node : Node) (zxid time : ℤ) :
    Option Bytes × NodeStats × ℕ × List Bytes :=
  (some request.data, { node.stats with
    version := node.stats.version + 1
    mzxid := zxid
    mtime := time
    data_size := request.data.length }, node.acl_id, node.children)

/-- What the tree should be after a Set. -/
def setExpected (container : Bytes → Option Node) (request : SetRequest) (zxid time : ℤ)
    (parent path : Bytes) : Option (Option Bytes × NodeStats × ℕ × List Bytes) :=
  (container path).map fun node =>
    if path = request.path then request.written node zxid time
    else if path = parent then
      (node.getData, { node.stats with cversion := node.stats.cversion + 1 }, node.acl_id,
        node.children)
    else node.content

variable {request : SetRequest} {node : Node} {zxid time : ℤ}

variable (request node zxid time) in
/-- The node after its two deltas. -/
def setNode : Node :=
  (node.setData request.data).setStats
    (request.newStats node.stats (node.stats.version + 1) zxid time)

lemma content_setNode_iff : (setNode request node zxid time).content =
    request.written node zxid time ↔ request.data.length < 2 ^ 32 := by
  constructor
  · intro h
    have hsize : request.data.length % 2 ^ 32 = request.data.length :=
      congrArg (fun content => content.2.1.data_size) h
    omega
  · intro hlt
    rw [setNode, Node.content, Node.getData, Node.setStats, Node.setData, SetRequest.newStats,
      SetRequest.written, Nat.mod_eq_of_lt hlt]
    by_cases hnil : request.data.length = 0
    · simp [length_eq_zero_iff.1 hnil]
    · simp [hnil]

lemma incrementInt32_of_lt {n : ℤ} (h : n < 2 ^ 31 - 1) : incrementInt32 n = .ok (n + 1) :=
  if_pos h

lemma incrementInt32_of_not_lt {n : ℤ} (h : ¬ n < 2 ^ 31 - 1) :
    incrementInt32 n = .error .undefined_behaviour := if_neg h

lemma updateNode_eq {container : Bytes → Option Node} {path : Bytes} {version : ℤ}
    (update_node : Node → Node) (hnode : container path = some node)
    (hversion : version = -1 ∨ version = node.stats.version) :
    updateNode container path version update_node =
      some (update container path (some (update_node node))) := by
  rw [updateNode, hnode]
  exact if_neg (by tauto)

section

variable {container : Bytes → Option Node} {parent : Bytes} {pnode : Node}
  (hnode : container request.path = some node)
  (hsystem : matchPath request.path keeper_system_path = .NOT_MATCH)
  (hversion : request.version = -1 ∨ request.version = node.stats.version)
  (hparent : parentNodePath request.path = .ok parent) (hpnode : container parent = some pnode)
include hnode hsystem hversion hparent hpnode

/-- A Set that returns counts the two versions, and both have room for it. -/
lemma preprocess_eq_ok_iff (zxid time : ℤ) {deltas : List Delta} :
    preprocess container request zxid time = .ok deltas ↔
      (node.stats.version < 2 ^ 31 - 1 ∧ pnode.stats.cversion < 2 ^ 31 - 1) ∧ deltas =
        [.UpdateNodeDataDelta request.path request.data request.version,
          .UpdateNodeStatDelta request.path
            (request.newStats node.stats (node.stats.version + 1) zxid time) request.version,
          .UpdateNodeStatDelta parent
            { pnode.stats with cversion := pnode.stats.cversion + 1 } (-1)] := by
  have hmatch : ¬ (request.version ≠ -1 ∧ request.version ≠ node.stats.version) := by
    tauto
  rw [preprocess, if_neg (by simp [hsystem]), hnode]
  simp only [if_neg hmatch, hparent, bind, Except.bind, hpnode]
  by_cases hv : node.stats.version < 2 ^ 31 - 1
  · by_cases hc : pnode.stats.cversion < 2 ^ 31 - 1
    · rw [incrementInt32_of_lt hv, incrementInt32_of_lt hc, and_iff_right ⟨hv, hc⟩]
      exact ⟨fun h => (Except.ok.inj h).symm, fun h => congrArg Except.ok h.symm⟩
    · rw [incrementInt32_of_lt hv, incrementInt32_of_not_lt hc]
      exact iff_of_false (fun h => by cases h) fun h => hc h.1.2
  · rw [incrementInt32_of_not_lt hv]
    exact iff_of_false (fun h => by cases h) fun h => hv h.1.1

/-- The container after a Set: first the node, then its parent, which may be `last`. -/
lemma set_eq {last : Node} (hv : node.stats.version < 2 ^ 31 - 1)
    (hc : pnode.stats.cversion < 2 ^ 31 - 1) (hlast : update container request.path
      (some (setNode request node zxid time)) parent = some last) :
    (preprocess container request zxid time).map (commit container) = .ok (some
      (update (update container request.path
        (some (setNode request node zxid time))) parent (some (last.setStats
          { pnode.stats with cversion := pnode.stats.cversion + 1 })), none)) := by
  have hdeltas := (preprocess_eq_ok_iff hnode hsystem hversion hparent hpnode zxid time).2
    ⟨⟨hv, hc⟩, rfl⟩
  have hdata : update container request.path (some (node.setData request.data))
      request.path = some (node.setData request.data) := update_self ..
  rw [hdeltas, Except.map, commit, updateNode_eq _ hnode hversion, bind_some, commit,
    updateNode_eq _ hdata hversion, bind_some, update_idem, ← setNode, commit,
    updateNode_eq _ hlast (.inl rfl), bind_some, commit]

end

/-- **Set does what it should** exactly for the nodes other than the root, with data whose
length fits into the field for it, while neither version is at its maximum. -/
theorem set_expected_iff (storage : Storage) (request : SetRequest) (zxid time : ℤ) {node : Node}
    (hnode : storage.container request.path = some node)
    (hsystem : matchPath request.path keeper_system_path = .NOT_MATCH)
    (hversion : request.version = -1 ∨ request.version = node.stats.version) :
    ∃ parent pnode, parentNodePath request.path = .ok parent ∧
      storage.container parent = some pnode ∧
      ((∃ container', (preprocess storage.container request zxid time).map
          (commit storage.container) = .ok (some (container', none)) ∧
        ∀ path, (container' path).map Node.content =
          setExpected storage.container request zxid time parent path) ↔
        request.path ≠ [ch '/'] ∧ request.data.length < 2 ^ 32 ∧
          node.stats.version < 2 ^ 31 - 1 ∧ pnode.stats.cversion < 2 ^ 31 - 1) := by
  obtain ⟨parent, hparent, hsome⟩ := storage.closed request.path (by rw [hnode]; rfl)
  obtain ⟨pnode, hpnode⟩ := isSome_iff_exists.1 hsome
  have hself := parent_eq_self_iff hparent
  refine ⟨parent, pnode, hparent, hpnode, ?_⟩
  by_cases hroom : node.stats.version < 2 ^ 31 - 1 ∧ pnode.stats.cversion < 2 ^ 31 - 1
  · obtain ⟨hv, hc⟩ := hroom
    by_cases hroot : request.path = [ch '/']
    · obtain rfl := hself.2 hroot
      obtain rfl := some.inj (hnode.symm.trans hpnode)
      refine iff_of_false (fun ⟨container', hset, h⟩ => ?_) fun h => h.1 hroot
      rw [set_eq hnode hsystem hversion hparent hpnode hv hc (update_self ..)] at hset
      cases hset
      -- the version is that of before
      have hsame := congrArg (Option.map fun content => content.2.1.version) (h request.path)
      simp [setExpected, SetRequest.written, hnode, Node.content, Node.setStats] at hsame
    · have hne : parent ≠ request.path := fun h => hroot (hself.1 h)
      rw [set_eq hnode hsystem hversion hparent hpnode hv hc ((update_of_ne hne ..).trans hpnode),
        and_iff_right hroot, and_iff_left ⟨hv, hc⟩, ← content_setNode_iff]
      constructor
      · rintro ⟨container', hset, h⟩
        cases hset
        have hpath := h request.path
        rw [update_of_ne hne.symm, update_self, setExpected, hnode, map_some,
          map_some, if_pos rfl] at hpath
        exact some.inj hpath
      · intro hcontent
        refine ⟨_, rfl, fun path => ?_⟩
        rw [setExpected]
        by_cases hpath : path = request.path
        · rw [hpath, update_of_ne hne.symm, update_self, hnode, map_some,
            map_some, if_pos rfl, hcontent]
        · by_cases hp : path = parent
          · rw [hp, update_self, hpnode, map_some, map_some, if_neg hne, if_pos rfl]
            rfl
          · rw [update_of_ne hp, update_of_ne hpath]
            simp only [if_neg hpath, if_neg hp]
  · -- one of the two counts is undefined, and there is no container
    refine iff_of_false (fun ⟨container', hset, _⟩ => ?_) fun h => hroom h.2.2
    cases hdeltas : preprocess storage.container request zxid time with
    | error fault => rw [hdeltas] at hset; cases hset
    | ok deltas =>
      exact hroom
        ((preprocess_eq_ok_iff hnode hsystem hversion hparent hpnode zxid time).1 hdeltas).1

/-- The root with the child `a`. -/
def twoNodes : Storage where
  container path :=
    if path = [ch '/'] ∨ path = [ch '/', ch 'a'] then
      some ⟨⟨0, 0, 0, 0, 0, 0, 0, 0, false, 0, 0⟩, [], 0, []⟩
    else none
  closed path h := by
    split_ifs at h with hpath
    · refine ⟨[ch '/'], ?_, rfl⟩
      rcases hpath with rfl | rfl <;> decide
    · cases h

/-- A Set of `/a`. -/
theorem set_expected_at_child : ∃ parent container',
    (preprocess twoNodes.container ⟨[ch '/', ch 'a'], [ch 'x'], 0⟩ 1 2).map
        (commit twoNodes.container) = .ok (some (container', none)) ∧
      ∀ path, (container' path).map Node.content =
        setExpected twoNodes.container ⟨[ch '/', ch 'a'], [ch 'x'], 0⟩ 1 2 parent path := by
  obtain ⟨parent, pnode, hparent, hpnode, hiff⟩ := set_expected_iff twoNodes
    ⟨[ch '/', ch 'a'], [ch 'x'], 0⟩ 1 2 rfl (by decide) (.inr rfl)
  cases (show parentNodePath [ch '/', ch 'a'] = .ok [ch '/'] by decide).symm.trans hparent
  cases hpnode
  exact ⟨_, hiff.2 ⟨by decide, by decide, by decide, by decide⟩⟩

/-- A Set of the root writes the data, and leaves the version, `mzxid` and the size. -/
theorem set_root_keeps_stats : ∃ container',
    (preprocess twoNodes.container ⟨[ch '/'], [ch 'x'], 0⟩ 1 2).map (commit twoNodes.container) =
        .ok (some (container', none)) ∧
      (container' [ch '/']).map (fun node => (node.data, node.stats)) =
        some ([ch 'x'], ⟨0, 0, 0, 0, 0, 1, 0, 0, false, 0, 0⟩) :=
  ⟨_, rfl, by decide⟩

end ClickHouse.Keeper
