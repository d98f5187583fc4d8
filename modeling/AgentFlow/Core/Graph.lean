/-
# Graphs and their builder

`agentflow/core/{edge.h,graph.h,graph.cc}`: a `GraphBuilder` collects nodes
and edges, `build` checks them and computes the entry nodes. A `Graph` can
only come from `build`, so what `build` checks is part of the type; that
`build` accepts exactly these is `Graph.build_toBuilder`.

A node is its id here; what it does when it runs is the scheduler's
environment (`AgentFlow.Core.Runner`).

Key definitions: `Edge`, `GraphBuilder.build`, `Graph`, `Graph.Pred`.
-/
import AgentFlow.Lib.Precedence

namespace AgentFlow

/-- A node id. -/
abbrev Id := String

inductive Condition
  | all
  | any
  deriving DecidableEq, Repr

/-- An edge `src → dst` (`from` and `to` in the source). Group 0 is the fan-in
of a DAG, a group above 0 a cycle the user declared. -/
structure Edge where
  src : Id
  dst : Id
  activationGroup : ℤ
  condition : Condition
  deriving DecidableEq, Repr

/-- The nodes and edges added so far. Both `addEdge`s keep the groups from
being negative. -/
structure GraphBuilder where
  nodes : List Id
  edges : List Edge
  group_nonneg : ∀ e ∈ edges, 0 ≤ e.activationGroup

/-- A graph that passed `build`. -/
structure Graph where
  nodes : List Id
  edges : List Edge
  entryNodeIds : List Id
  group_nonneg : ∀ e ∈ edges, 0 ≤ e.activationGroup
  nodes_nodup : nodes.Nodup
  edges_known : ∀ e ∈ edges, e.src ∈ nodes ∧ e.dst ∈ nodes
  /-- The edges of one group into one node have one condition. -/
  consistent : ∀ e ∈ edges, ∀ e' ∈ edges, e.dst = e'.dst → e.activationGroup = e'.activationGroup →
    e.condition = e'.condition
  entryNodeIds_eq : entryNodeIds = nodes.filter fun n => !edges.any fun e => e.activationGroup = 0 ∧ e.dst = n
  entryNodeIds_ne : entryNodeIds ≠ []

namespace GraphBuilder

/-- A builder nothing was added to. -/
def empty : GraphBuilder := ⟨[], [], by simp⟩

def addNode (b : GraphBuilder) (id : Id) : GraphBuilder := { b with nodes := b.nodes ++ [id] }

/-- The overload without a group: a group-0 edge. -/
def addEdge (b : GraphBuilder) (src dst : Id) (cond : Condition) : GraphBuilder where
  nodes := b.nodes
  edges := b.edges ++ [⟨src, dst, 0, cond⟩]
  group_nonneg e he := by
    rcases List.mem_append.mp he with he | he
    · exact b.group_nonneg e he
    · simp [List.mem_singleton.mp he]

/-- The overload with a group, which it requires to be positive. -/
def addGroupEdge (b : GraphBuilder) (src dst : Id) (userGroup : ℤ) (cond : Condition) :
    Except String GraphBuilder :=
  if h : userGroup ≤ 0 then
    .error "user_group must be > 0 (use 0-arg overload for non-cycle edges)"
  else
    .ok
      { nodes := b.nodes
        edges := b.edges ++ [⟨src, dst, userGroup, cond⟩]
        group_nonneg := fun e he => by
          rcases List.mem_append.mp he with he | he
          · exact b.group_nonneg e he
          · simp only [List.mem_singleton.mp he]; omega }

/-- The first id that occurs a second time. -/
def firstDuplicate : List Id → List Id → Option Id
  | _, [] => none
  | seen, id :: ids => if id ∈ seen then some id else firstDuplicate (id :: seen) ids

/-- The first edge whose condition differs from that of an earlier edge of
the same group into the same node. -/
def firstConflict : List Edge → List Edge → Option Edge
  | _, [] => none
  | seen, e :: es =>
    match seen.find? fun e' => e'.dst = e.dst ∧ e'.activationGroup = e.activationGroup with
    | none => firstConflict (seen ++ [e]) es
    | some e' => if e'.condition = e.condition then firstConflict (seen ++ [e]) es else some e

/-- The nodes without an incoming group-0 edge. -/
def entries (nodes : List Id) (edges : List Edge) : List Id :=
  nodes.filter fun n => !edges.any fun e => e.activationGroup = 0 ∧ e.dst = n

/-! ### What the checks establish -/

theorem firstDuplicate_eq_none : ∀ (seen ids : List Id),
    firstDuplicate seen ids = none ↔ ids.Nodup ∧ ∀ id ∈ ids, id ∉ seen
  | _, [] => by simp [firstDuplicate]
  | seen, id :: ids => by
    rw [firstDuplicate]
    split_ifs with h
    · simp [h]
    · rw [firstDuplicate_eq_none (id :: seen) ids, List.nodup_cons]
      constructor
      · rintro ⟨hn, hs⟩
        refine ⟨⟨fun hm => hs id hm List.mem_cons_self, hn⟩, fun x hx => ?_⟩
        rcases List.mem_cons.mp hx with rfl | hx
        · exact h
        · exact fun hm => hs x hx (List.mem_cons_of_mem _ hm)
      · rintro ⟨⟨hm, hn⟩, hs⟩
        refine ⟨hn, fun x hx hm' => ?_⟩
        rcases List.mem_cons.mp hm' with rfl | hm'
        · exact hm hx
        · exact hs x (List.mem_cons_of_mem _ hx) hm'

/-- The edges agree on the condition of every group of every node. -/
def Consistent (edges : List Edge) : Prop :=
  ∀ e ∈ edges, ∀ e' ∈ edges, e.dst = e'.dst → e.activationGroup = e'.activationGroup →
    e.condition = e'.condition

/-- An edge joins a consistent list: it agrees with the first of its group. -/
theorem consistent_snoc_iff {seen : List Edge} (hs : Consistent seen) (e : Edge) :
    Consistent (seen ++ [e]) ↔
      ∀ e' ∈ seen, e'.dst = e.dst → e'.activationGroup = e.activationGroup → e'.condition = e.condition := by
  constructor
  · intro h e' he'
    exact h e' (List.mem_append_left _ he') e (by simp)
  · intro h a ha b hb hd hg
    simp only [List.mem_append, List.mem_singleton] at ha hb
    rcases ha with ha | rfl <;> rcases hb with hb | rfl
    · exact hs a ha b hb hd hg
    · exact h a ha hd hg
    · exact (h b hb hd.symm hg.symm).symm
    · rfl

theorem firstConflict_eq_none : ∀ (es seen : List Edge), Consistent seen →
    (firstConflict seen es = none ↔ Consistent (seen ++ es))
  | [], seen, hs => by simp [firstConflict, hs]
  | e :: es, seen, hs => by
    have happ : seen ++ e :: es = (seen ++ [e]) ++ es := by simp
    have hsub : Consistent (seen ++ e :: es) → Consistent (seen ++ [e]) := fun h a ha b hb =>
      h a (by simp only [List.mem_append, List.mem_cons] at ha ⊢; tauto)
        b (by simp only [List.mem_append, List.mem_cons] at hb ⊢; tauto)
    rw [firstConflict]
    cases hf : seen.find? fun e' => e'.dst = e.dst ∧ e'.activationGroup = e.activationGroup with
    | none =>
      have hnone := List.find?_eq_none.mp hf
      have hs' : Consistent (seen ++ [e]) := (consistent_snoc_iff hs e).mpr fun e' he' hd hg =>
        absurd (by simp [hd, hg]) (hnone e' he')
      simp only
      rw [happ, firstConflict_eq_none es _ hs']
    | some e' =>
      have hmem := List.mem_of_find?_eq_some hf
      have hp : e'.dst = e.dst ∧ e'.activationGroup = e.activationGroup := by
        simpa using List.find?_some hf
      simp only
      split_ifs with hc
      · have hs' : Consistent (seen ++ [e]) := (consistent_snoc_iff hs e).mpr fun a ha hd hg =>
          (hs a ha e' hmem (hd.trans hp.1.symm) (hg.trans hp.2.symm)).trans hc
        rw [happ, firstConflict_eq_none es _ hs']
      · simp only [false_iff]
        exact fun h => hc ((consistent_snoc_iff hs e).mp (hsub h) e' hmem hp.1 hp.2)

/-- `GraphBuilder::Build`. -/
def build (b : GraphBuilder) : Except String Graph :=
  match hd : firstDuplicate [] b.nodes with
  | some id => .error ("duplicate node id: " ++ id)
  | none =>
    match hu : b.edges.find? fun e => !(decide (e.src ∈ b.nodes) && decide (e.dst ∈ b.nodes)) with
    | some e => .error ("edge references unknown node: " ++ e.src ++ " -> " ++ e.dst)
    | none =>
      match hc : firstConflict [] b.edges with
      | some e =>
        .error ("node '" ++ e.dst ++ "' has conflicting Condition (ALL vs ANY) " ++
          "for activation_group " ++ toString e.activationGroup)
      | none =>
        if he : entries b.nodes b.edges = [] then
          .error "graph has no entry node (every node has a group=0 incoming edge)"
        else
          .ok
            { nodes := b.nodes
              edges := b.edges
              entryNodeIds := entries b.nodes b.edges
              group_nonneg := b.group_nonneg
              nodes_nodup := ((firstDuplicate_eq_none _ _).mp hd).1
              edges_known := fun e h => by simpa using List.find?_eq_none.mp hu e h
              consistent := by
                have := (firstConflict_eq_none b.edges [] (by simp [Consistent])).mp hc
                simpa [Consistent] using this
              entryNodeIds_eq := rfl
              entryNodeIds_ne := he }

end GraphBuilder

namespace Graph

/-- The builder a graph was built from. -/
def toBuilder (g : Graph) : GraphBuilder := ⟨g.nodes, g.edges, g.group_nonneg⟩

/-- Every graph is one that `build` accepts. -/
theorem build_toBuilder (g : Graph) : g.toBuilder.build = .ok g := by
  have hd : GraphBuilder.firstDuplicate [] g.toBuilder.nodes = none := by
    rw [GraphBuilder.firstDuplicate_eq_none]; exact ⟨g.nodes_nodup, by simp⟩
  have hu : (g.toBuilder.edges.find? fun e =>
      !(decide (e.src ∈ g.toBuilder.nodes) && decide (e.dst ∈ g.toBuilder.nodes))) = none := by
    rw [List.find?_eq_none]
    intro e he
    have hk : e.src ∈ g.toBuilder.nodes ∧ e.dst ∈ g.toBuilder.nodes := g.edges_known e he
    simp [hk]
  have hc : GraphBuilder.firstConflict [] g.toBuilder.edges = none := by
    rw [GraphBuilder.firstConflict_eq_none _ _ (by simp [GraphBuilder.Consistent])]
    exact g.consistent
  have hent : GraphBuilder.entries g.toBuilder.nodes g.toBuilder.edges = g.entryNodeIds :=
    g.entryNodeIds_eq.symm
  unfold GraphBuilder.build
  split
  · rename_i h; cases hd.symm.trans h
  split
  · rename_i h; cases hu.symm.trans h
  split
  · rename_i h; cases hc.symm.trans h
  rw [dif_neg (by rw [hent]; exact g.entryNodeIds_ne)]
  congr 1
  cases g
  simp only [toBuilder] at hent
  subst hent
  rfl

/-- An edge leads from `a` to `b`. -/
def Pred (g : Graph) (a b : Id) : Prop := ∃ e ∈ g.edges, e.src = a ∧ e.dst = b

instance (g : Graph) (a b : Id) : Decidable (g.Pred a b) :=
  inferInstanceAs (Decidable (∃ e ∈ g.edges, e.src = a ∧ e.dst = b))

/-- The edges form a DAG. -/
def IsDag (g : Graph) : Prop := Precedence.Acyclic g.Pred

/-- Every edge is a plain fan-in edge: group 0, condition ALL. -/
def PlainFanIn (g : Graph) : Prop := ∀ e ∈ g.edges, e.activationGroup = 0 ∧ e.condition = .all

/-- A node without outgoing edges. -/
def Terminal (g : Graph) (n : Id) : Prop := ∀ e ∈ g.edges, e.src ≠ n

/-- `Graph::FindNode` finds the node. -/
def hasNode (g : Graph) (id : Id) : Bool := decide (id ∈ g.nodes)

variable {g : Graph}

theorem pred_mem {a b : Id} (h : g.Pred a b) : a ∈ g.nodes ∧ b ∈ g.nodes := by
  obtain ⟨e, he, rfl, rfl⟩ := h
  exact g.edges_known e he

theorem mem_entryNodeIds {n : Id} :
    n ∈ g.entryNodeIds ↔ n ∈ g.nodes ∧ ∀ e ∈ g.edges, e.activationGroup = 0 → e.dst ≠ n := by
  rw [g.entryNodeIds_eq, List.mem_filter]
  simp

theorem entryNodeIds_nodup : g.entryNodeIds.Nodup := by
  rw [g.entryNodeIds_eq]; exact g.nodes_nodup.filter _

theorem entryNodeIds_sub {n : Id} (h : n ∈ g.entryNodeIds) : n ∈ g.nodes := (mem_entryNodeIds.mp h).1

theorem IsDag.wellFounded (h : g.IsDag) : WellFounded g.Pred :=
  Precedence.wellFounded_of_acyclic (fun _ _ hab => pred_mem hab) h

/-- A chain of three nodes. -/
def line : Graph where
  nodes := ["a", "b", "c"]
  edges := [⟨"a", "b", 0, .all⟩, ⟨"b", "c", 0, .any⟩]
  entryNodeIds := ["a"]
  group_nonneg := by decide
  nodes_nodup := by decide
  edges_known := by decide
  consistent := by decide
  entryNodeIds_eq := by decide
  entryNodeIds_ne := by decide

/-- Two entry nodes that join. -/
def join : Graph where
  nodes := ["a", "b", "c"]
  edges := [⟨"a", "c", 0, .all⟩, ⟨"b", "c", 0, .all⟩]
  entryNodeIds := ["a", "b"]
  group_nonneg := by decide
  nodes_nodup := by decide
  edges_known := by decide
  consistent := by decide
  entryNodeIds_eq := by decide
  entryNodeIds_ne := by decide

/-- Three entry nodes, one with a successor. -/
def branches : Graph where
  nodes := ["a", "b", "c", "d"]
  edges := [⟨"b", "c", 0, .all⟩]
  entryNodeIds := ["a", "b", "d"]
  group_nonneg := by decide
  nodes_nodup := by decide
  edges_known := by decide
  consistent := by decide
  entryNodeIds_eq := by decide
  entryNodeIds_ne := by decide

/-- A join one of whose entry nodes loops on itself. -/
def loopJoin : Graph where
  nodes := ["a", "b", "c"]
  edges := [⟨"a", "a", 1, .all⟩, ⟨"a", "c", 0, .all⟩, ⟨"b", "c", 0, .all⟩]
  entryNodeIds := ["a", "b"]
  group_nonneg := by decide
  nodes_nodup := by decide
  edges_known := by decide
  consistent := by decide
  entryNodeIds_eq := by decide
  entryNodeIds_ne := by decide

/-- An entry node, two branches, and their join. -/
def diamond : Graph where
  nodes := ["a", "b", "c", "d"]
  edges := [⟨"a", "b", 0, .all⟩, ⟨"a", "c", 0, .all⟩, ⟨"b", "d", 0, .all⟩, ⟨"c", "d", 0, .all⟩]
  entryNodeIds := ["a"]
  group_nonneg := by decide
  nodes_nodup := by decide
  edges_known := by decide
  consistent := by decide
  entryNodeIds_eq := by decide
  entryNodeIds_ne := by decide

end Graph

end AgentFlow
