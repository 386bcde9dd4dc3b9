import CedarGraph.Lib.Runs

/-!
# The hash ring

`AddNode` places the virtual nodes of a node at their hashes or, where those are taken, at one
of the next positions. `GetNode` takes the first position from the hash of the key on. A new
node only takes keys over, but where it stands depends on the nodes that came before.
-/

namespace CedarGraph

open List Runs

structure VirtualNode where
  hash : UInt32
  physicalNode : String
  deriving DecidableEq, Repr

structure HashRingConfig where
  virtualNodesPerPhysical : Nat
  hashFunction : String → UInt32

/-- The ring is in the order of the positions. -/
structure ConsistentHashRing where
  ring : List VirtualNode
  physicalNodes : List String

namespace ConsistentHashRing

/-- `ring_[hash] = vnode` -/
def assign (vnode : VirtualNode) : List VirtualNode → List VirtualNode
  | [] => [vnode]
  | first :: rest =>
    if vnode.hash < first.hash then vnode :: first :: rest
    else if first.hash = vnode.hash then vnode :: rest
    else first :: assign vnode rest

def probe (ring : List VirtualNode) : Nat → UInt32 → UInt32
  | 0, hash => hash
  | left + 1, hash =>
    if hash ∈ ring.map VirtualNode.hash then probe ring left (hash + 1) else hash

/-- `lower_bound`, or the first position when there is none. -/
def successor (ring : List VirtualNode) (hash : UInt32) : Option VirtualNode :=
  (ring.find? fun vnode => decide (hash ≤ vnode.hash)).or ring.head?

section Calls

variable (config : HashRingConfig) (nodeId : String) (self : ConsistentHashRing)

def addVirtualNode (ring : List VirtualNode) (replica : Nat) : List VirtualNode :=
  let hash := config.hashFunction (nodeId ++ "#" ++ toString replica)
  assign ⟨probe ring config.virtualNodesPerPhysical hash, nodeId⟩ ring

def addVirtualNodes (ring : List VirtualNode) : List VirtualNode :=
  (List.range config.virtualNodesPerPhysical).foldl (addVirtualNode config nodeId) ring

def addNode : ConsistentHashRing :=
  if nodeId ∈ self.physicalNodes then self
  else ⟨addVirtualNodes config nodeId self.ring, nodeId :: self.physicalNodes⟩

def removeNode : ConsistentHashRing :=
  if nodeId ∈ self.physicalNodes then
    ⟨self.ring.filter fun vnode => vnode.physicalNode ≠ nodeId,
      self.physicalNodes.filter fun other => other ≠ nodeId⟩
  else self

def getNode (key : String) : String :=
  match successor self.ring (config.hashFunction key) with
  | none => ""
  | some vnode => vnode.physicalNode

end Calls

variable {ring : List VirtualNode} {vnode : VirtualNode} {hash : UInt32}

theorem head_eq_find (ring : List VirtualNode) : ring.head? = ring.find? fun _ => true := by
  cases ring <;> rfl

theorem find_assign (starts : UInt32 → Bool) (vnode : VirtualNode) (ring : List VirtualNode) :
    (assign vnode ring).find? (fun other => starts other.hash) = some vnode ∨
      (assign vnode ring).find? (fun other => starts other.hash) =
        ring.find? fun other => starts other.hash := by
  induction ring with
  | nil => cases here : starts vnode.hash <;> simp [assign, here]
  | cons first rest ih =>
    rw [assign]
    split
    · cases here : starts vnode.hash <;> simp [here]
    split
    · rename_i same
      cases here : starts vnode.hash <;> simp [here, same]
    · cases here : starts first.hash
      · simpa [here] using ih
      · simp [here]

theorem successor_assign (vnode : VirtualNode) (ring : List VirtualNode) (hash : UInt32) :
    successor (assign vnode ring) hash = some vnode ∨
      successor (assign vnode ring) hash = successor ring hash := by
  rw [successor, successor]
  rcases find_assign (fun other => decide (hash ≤ other)) vnode ring with own | same
  · rw [own]
    exact Or.inl rfl
  · rw [same]
    cases ring.find? fun other => decide (hash ≤ other.hash) with
    | none =>
      rw [Option.none_or, Option.none_or, head_eq_find, head_eq_find]
      exact find_assign (fun _ => true) vnode ring
    | some other => exact Or.inr rfl

theorem successor_filter {keeps : VirtualNode → Bool} (found : successor ring hash = some vnode)
    (kept : keeps vnode) : successor (ring.filter keeps) hash = some vnode := by
  have first : ∀ {starts : VirtualNode → Bool}, ring.find? starts = some vnode →
      (ring.filter keeps).find? starts = some vnode := by
    intro starts isFirst
    obtain ⟨holds, front, back, same, before⟩ := find?_eq_some_iff_append.mp isFirst
    rw [find?_filter]
    refine find?_eq_some_iff_append.mpr ⟨by simp [holds, kept], front, back, same, ?_⟩
    intro other mem
    have passed := before other mem
    simp_all
  rw [successor, head_eq_find, Option.or_eq_some_iff] at found ⊢
  rcases found with isFirst | ⟨nothing, isHead⟩
  · exact Or.inl (first isFirst)
  · refine Or.inr ⟨?_, first isHead⟩
    rw [find?_eq_none] at nothing ⊢
    exact fun other mem => nothing other (mem_of_mem_filter mem)

/-- A node that leaves gives only its own keys away, and a new node only takes keys over. -/
theorem getNode_stable (config : HashRingConfig) (self : ConsistentHashRing) (x key : String) :
    (self.getNode config key ≠ x →
      (self.removeNode x).getNode config key = self.getNode config key) ∧
    ((self.addNode config x).getNode config key = self.getNode config key ∨
      (self.addNode config x).getNode config key = x) := by
  constructor
  · intro ne
    rw [removeNode]
    split
    · cases found : successor self.ring (config.hashFunction key) with
      | none =>
        simp only [successor, Option.or_eq_none_iff, head?_eq_none_iff] at found
        rw [getNode, getNode, found.2]
        rfl
      | some vnode =>
        rw [getNode, found] at ne
        rw [getNode, getNode, found, successor_filter found]
        exact decide_eq_true ne
    · rfl
  · rw [addNode]
    split
    · exact Or.inl rfl
    · refine foldlRecOn (motive := fun ring =>
          getNode config ⟨ring, x :: self.physicalNodes⟩ key = self.getNode config key ∨
            getNode config ⟨ring, x :: self.physicalNodes⟩ key = x)
        _ (addVirtualNode config x) (Or.inl rfl) ?_
      intro ring placed replica _
      obtain ⟨vnode, own, shape⟩ : ∃ vnode, vnode.physicalNode = x ∧
          addVirtualNode config x ring replica = assign vnode ring := ⟨_, rfl, rfl⟩
      simp only [getNode, shape] at placed ⊢
      rcases successor_assign vnode ring (config.hashFunction key) with found | same
      · rw [found]
        exact Or.inr own
      · rw [same]
        exact placed

inductive RingCall where
  | addNode (nodeId : String)
  | removeNode (nodeId : String)

def empty : ConsistentHashRing := ⟨[], []⟩

abbrev Sorted (ring : List VirtualNode) : Prop :=
  ring.Pairwise fun vnode other => vnode.hash < other.hash

section Membership

variable (config : HashRingConfig)

def step (self : ConsistentHashRing) : RingCall → ConsistentHashRing
  | .addNode nodeId => self.addNode config nodeId
  | .removeNode nodeId => self.removeNode nodeId

/-- The positions that the node takes on an empty ring are free. -/
def Clear (self : ConsistentHashRing) : RingCall → Prop
  | .addNode nodeId => nodeId ∈ self.physicalNodes ∨
    ∀ vnode ∈ addVirtualNodes config nodeId [], vnode.hash ∉ self.ring.map VirtualNode.hash
  | .removeNode _ => True

/-- Each node stands where it stands on an empty ring. -/
structure Placed (sys : ConsistentHashRing) : Prop where
  sorted : Sorted sys.ring
  mem_iff : ∀ vnode, vnode ∈ sys.ring ↔
    ∃ nodeId ∈ sys.physicalNodes, vnode ∈ addVirtualNodes config nodeId []

end Membership

variable {config : HashRingConfig} {nodeId : String} {other : VirtualNode}

theorem mem_assign (sorted : Sorted ring) :
    other ∈ assign vnode ring ↔ other = vnode ∨ other ∈ ring ∧ other.hash ≠ vnode.hash := by
  induction ring with
  | nil => simp [assign]
  | cons first rest ih =>
    obtain ⟨above, restSorted⟩ := pairwise_cons.mp sorted
    have restMem := ih restSorted
    have later := above other
    rw [assign]
    split <;> grind

theorem sorted_assign (sorted : Sorted ring) : Sorted (assign vnode ring) := by
  induction ring with
  | nil => exact pairwise_singleton _ _
  | cons first rest ih =>
    obtain ⟨above, restSorted⟩ := pairwise_cons.mp sorted
    have restMem := fun other => @mem_assign _ vnode other restSorted
    rw [assign]
    split <;> grind [pairwise_cons]

theorem addVirtualNodes_spec (sorted : Sorted ring) (replicas : List Nat) :
    Sorted (replicas.foldl (addVirtualNode config nodeId) ring) ∧
      ∀ vnode ∈ replicas.foldl (addVirtualNode config nodeId) ring,
        vnode ∈ ring ∨ vnode.physicalNode = nodeId := by
  refine foldlRecOn (motive := fun placed => Sorted placed ∧
    ∀ vnode ∈ placed, vnode ∈ ring ∨ vnode.physicalNode = nodeId)
    _ _ ⟨sorted, fun _ => Or.inl⟩ ?_
  rintro placed ⟨placedSorted, own⟩ replica _
  refine ⟨sorted_assign placedSorted, ?_⟩
  intro vnode mem
  rcases (mem_assign placedSorted).mp mem with new | old
  · exact Or.inr (congrArg VirtualNode.physicalNode new)
  · exact own vnode old.1

theorem probe_eq {own union : List VirtualNode}
    (both : ∀ vnode, vnode ∈ union ↔ vnode ∈ ring ∨ vnode ∈ own) {left : Nat}
    (free : probe own left hash ∉ ring.map VirtualNode.hash) :
    probe union left hash = probe own left hash := by
  induction left generalizing hash with
  | zero => rfl
  | succ left ih =>
    rw [probe] at free ⊢
    rw [probe]
    split at free <;> grind

/-- Where its positions are free, a node takes the same ones as on an empty ring. -/
theorem mem_addVirtualNodes (sorted : Sorted ring) {replicas : List Nat}
    (free : ∀ vnode ∈ replicas.foldl (addVirtualNode config nodeId) [],
      vnode.hash ∉ ring.map VirtualNode.hash) (vnode : VirtualNode) :
    vnode ∈ replicas.foldl (addVirtualNode config nodeId) ring ↔
      vnode ∈ ring ∨ vnode ∈ replicas.foldl (addVirtualNode config nodeId) [] := by
  induction replicas using reverseRecOn generalizing vnode with
  | nil => simp
  | append_singleton replicas replica ih =>
    have ownSorted := (@addVirtualNodes_spec [] config nodeId Pairwise.nil replicas).1
    have unionSorted := (@addVirtualNodes_spec ring config nodeId sorted replicas).1
    rw [foldl_concat] at free ⊢
    rw [foldl_concat]
    generalize replicas.foldl (addVirtualNode config nodeId) [] = own at *
    generalize replicas.foldl (addVirtualNode config nodeId) ring = union at *
    simp only [addVirtualNode, mem_assign ownSorted] at free
    simp only [addVirtualNode, mem_assign ownSorted, mem_assign unionSorted]
    have newFree := free _ (Or.inl rfl)
    have both := ih fun vnode mem => by
      by_cases same : vnode.hash = probe own config.virtualNodesPerPhysical
          (config.hashFunction (nodeId ++ "#" ++ toString replica))
      · rw [same]
        exact newFree
      · exact free vnode (Or.inr ⟨mem, same⟩)
    rw [probe_eq both newFree, both]
    grind

theorem Placed.step {sys : ConsistentHashRing} (placed : Placed config sys) {call : RingCall}
    (clear : Clear config sys call) : Placed config (sys.step config call) := by
  cases call with
  | addNode nodeId =>
    rw [ConsistentHashRing.step, addNode]
    split
    · exact placed
    rename_i fresh
    refine ⟨(addVirtualNodes_spec placed.sorted _).1, ?_⟩
    intro vnode
    rw [addVirtualNodes, mem_addVirtualNodes placed.sorted (clear.resolve_left fresh),
      placed.mem_iff, ← addVirtualNodes]
    simp [or_comm]
  | removeNode nodeId =>
    rw [ConsistentHashRing.step, removeNode]
    split
    · refine ⟨placed.sorted.filter _, ?_⟩
      intro vnode
      have own : ∀ other, vnode ∈ addVirtualNodes config other [] → vnode.physicalNode = other := by
        intro other mem
        exact ((addVirtualNodes_spec Pairwise.nil _).2 vnode mem).resolve_left not_mem_nil
      grind [placed.mem_iff vnode]
    · exact placed

/-- Two rings on which no node found a position taken route alike once their members agree. -/
theorem getNode_eq_of_members (config : HashRingConfig) {calls others : List RingCall}
    (clear : Admissible (step config) (Clear config) empty calls)
    (othersClear : Admissible (step config) (Clear config) empty others)
    (same : ∀ nodeId, nodeId ∈ (run (step config) empty calls).physicalNodes ↔
      nodeId ∈ (run (step config) empty others).physicalNodes) (key : String) :
    (run (step config) empty calls).getNode config key =
      (run (step config) empty others).getNode config key := by
  have start : Placed config empty := ⟨Pairwise.nil, by simp [empty]⟩
  have placed := invariant_run (fun _ _ placed => placed.step) start clear
  have othersPlaced := invariant_run (fun _ _ placed => placed.step) start othersClear
  have sameRing : (run (step config) empty calls).ring = (run (step config) empty others).ring := by
    have : Std.Antisymm fun vnode other : VirtualNode => vnode.hash < other.hash :=
      ⟨fun _ _ below above => absurd above (UInt32.lt_asymm below)⟩
    have : Std.Irrefl fun vnode other : VirtualNode => vnode.hash < other.hash :=
      ⟨fun _ => UInt32.lt_irrefl _⟩
    refine placed.sorted.eq_of_mem_iff othersPlaced.sorted ?_
    intro vnode
    simp only [placed.mem_iff, othersPlaced.mem_iff, same]
  rw [getNode, getNode, sameRing]

theorem getNode_eq_of_members_swapped :
    let config : HashRingConfig := ⟨1, fun key => key.length.toUInt32⟩
    (run (step config) empty [.addNode "a", .addNode "bb"]).getNode config "key" =
      (run (step config) empty [.addNode "bb", .addNode "a"]).getNode config "key" := by
  intro config
  refine getNode_eq_of_members config ?_ ?_ (fun _ => Perm.mem_iff ?_) "key"
  · exact ⟨Or.inr (by decide +kernel), Or.inr (by decide +kernel), trivial⟩
  · exact ⟨Or.inr (by decide +kernel), Or.inr (by decide +kernel), trivial⟩
  · decide +kernel

/-- Two nodes whose virtual nodes share a hash: the one that comes first has it. -/
theorem getNode_depends_on_order :
    let config : HashRingConfig := ⟨1, fun _ => 0⟩
    let first := run (step config) empty [.addNode "a", .addNode "b"]
    let second := run (step config) empty [.addNode "b", .addNode "a"]
    (∀ nodeId, nodeId ∈ first.physicalNodes ↔ nodeId ∈ second.physicalNodes) ∧
      first.getNode config "key" ≠ second.getNode config "key" := by
  refine ⟨fun nodeId => Perm.mem_iff ?_, ?_⟩ <;> decide +kernel

end ConsistentHashRing

end CedarGraph
