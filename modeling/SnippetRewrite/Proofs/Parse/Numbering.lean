import SnippetRewrite.Proofs.Arena.TreeShape
import SnippetRewrite.Proofs.Parse.Accepted
import SnippetRewrite.Proofs.Parse.Storing

/-!
How the nodes of a unit are numbered that has just been read. Every production stores its nodes behind
those that are there, and each of them is owed to a parent until one is stored that holds it. Main
statement: a unit that is read consists of exactly one tree and nothing else; its root comes last, and
all other nodes are held by one child slot of one node with a higher number.
-/

namespace SnippetRewrite

namespace Arena

variable {a : Arena} {root : NodeId}

/-- The nodes of an arena are those of one tree, without garbage, and numbered from the leaves to
the root. -/
structure Compact (a : Arena) (root : NodeId) (t : Tree) : Prop where
  root_eq : a.root = some root
  tree_eq : a.tree root = .ok t
  free_nil : a.free = []
  full : ∀ id < a.cells.size, a.contains id
  /-- The root has the highest number. -/
  size_eq : a.cells.size = root + 1
  /-- Every other node is in exactly one slot of exactly one node. -/
  held : ∀ id < root, ∃! slot, a.held? slot = some id
  lt : ∀ id slot, a.held? slot = some id → id < slot.1
  liveCount_eq : a.liveCount = t.size

/-- A node that alone is owed comes last: a node behind it would be held by one behind itself. -/
theorem Owing.size_eq (h : a.Owing [root]) : a.cells.size = root + 1 := by
  have hroot := h.lt_size root (List.mem_singleton_self root)
  refine Nat.le_antisymm (Nat.le_of_not_lt fun hlt => ?_) hroot
  have hlast : a.cells.size - 1 < a.cells.size := Nat.sub_one_lt_of_lt hroot
  have hne : a.cells.size - 1 ∉ [root] := by
    rw [List.mem_singleton]
    exact Nat.ne_of_gt (Nat.lt_sub_of_add_lt hlt)
  obtain ⟨slot, hslot, -⟩ := h.held _ hlast hne
  exact Nat.not_lt_of_le (Nat.le_sub_one_of_lt (lt_size_of_held? hslot)) (h.lt _ slot hslot)

/-- A source text that is accepted, with whatever sigil and label, becomes one tree without garbage:
no slot is free, the root comes last, and each other node comes before its only holder. -/
theorem parseUnit_compact {sigil : Char} {source origin : String} {a : Arena}
    (h : parseUnit sigil source origin = .ok a) :
    ∃ root t, readProgram sigil source.toList = .ok t ∧ a.Compact root t := by
  rcases exists_storing sigil source origin with
    ⟨t, root, b, hread, -, howing, hparse⟩ | ⟨failure, -, -, hparse⟩
  · obtain rfl : { b with root := some root } = a := Except.ok.inj (hparse.symm.trans h)
    obtain ⟨root', hshape, htree⟩ := ofTree_treeShaped origin (readProgram_isPart hread).hasShape
    have hunit : ofTree origin t = { b with root := some root } := by
      rw [parseUnit_eq, hread] at hparse
      exact Except.ok.inj hparse
    rw [hunit] at hshape htree
    obtain rfl : root = root' := Option.some.inj hshape.root_eq
    refine ⟨root, t, hread, rfl, htree, howing.free_nil, howing.full, howing.size_eq,
      fun id hid => howing.held id (Nat.lt_trans hid (howing.lt_size root (by simp)))
        (by simpa using Nat.ne_of_lt hid), howing.lt, ?_⟩
    obtain ⟨l, rfl, howns⟩ := hshape.exists_owns
    have hsame := howns.holds_all.tree_eq.symm.trans htree
    rw [howns.liveCount_eq, ← Placement.size_tree, Except.ok.inj hsame]
  · cases hparse.symm.trans h

def typedFunction : Tree :=
  .list .stmtList
    [.node 1 (.decl .function "f" 0)
      [some (.list .paramList [.fixed .param [some (.name "$p" 1), none] 1] 1), none,
        some (.list .stmtList [.fixed .ret [some (.var "$p" 1)] 1] 1), some (.name "T" 1)]] 1

/-- The body of the function, which comes after the return type, is stored in the slot before it. -/
theorem parseUnit_typedFunction :
    ∃ a, parseUnit defaultSigil "function f($p): T \x7b return $p; \x7d" "unit" = .ok a ∧
      a.Compact 9 typedFunction ∧ a.held? (8, 3) = some 3 ∧ a.held? (8, 2) = some 7 := by
  have hread : readProgram defaultSigil "function f($p): T \x7b return $p; \x7d".toList =
      .ok typedFunction := readProgram_of_toOption (by decide +kernel)
  have hparse : parseUnit defaultSigil "function f($p): T \x7b return $p; \x7d" "unit" =
      .ok (.ofTree "unit" typedFunction) := by
    rw [parseUnit_eq, hread]
  obtain ⟨root, t, ht, hcompact⟩ := parseUnit_compact hparse
  obtain rfl : typedFunction = t := Except.ok.inj (hread.symm.trans ht)
  have hroot : (Arena.ofTree "unit" typedFunction).root = some 9 := by decide +kernel
  obtain rfl : root = 9 := Option.some.inj (hcompact.root_eq.symm.trans hroot)
  exact ⟨_, hparse, hcompact, by decide +kernel, by decide +kernel⟩

end Arena

end SnippetRewrite
