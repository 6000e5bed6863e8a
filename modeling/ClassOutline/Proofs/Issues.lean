import ClassOutline.Proofs.Addresses
/-
  ClassOutline.Proofs.Issues — the issues of a tree are all its errors and missing nodes.

  The walk that collects issues leaves out every part of the tree without any. What it goes by
  is a flag of each node. If the flag says that the node or something below it is an error or
  missing, nothing is left out that should be listed: the walk finds what one finds that enters
  every node (`flaggedIssues_eq`). So, whatever computes the flag, the issues are those of the
  errors and missing nodes of the tree, each once and in document order, at the place where the
  node begins and with the message of its kind (`issues_by_address`). The flag that a tree's
  issues are found by has that meaning (`hasIssue_iff`).

  The nodes are enumerated by their addresses (`Node.addresses`), by recursion on the tree.
  Addresses of children are those in the child behind its index, so that membership and order
  follow the recursion (`mem_addresses`, `addresses_sorted`).
-/

namespace ClassOutline.Tree

open ClassOutline.Text

/-- The node at an address is an error or missing. -/
def IsFaulty (n : Node) (a : Address) : Prop := ∃ m, n.at? a = some m ∧ (m.kind = .error ∨ m.missing = true)

/-- The issue says where the node at an address begins, and what is wrong with it. -/
def IsIssueAt (root : Node) (i : Issue) (a : Address) : Prop :=
  ∃ n, root.at? a = some n ∧ i.line = n.span.first.row + 1 ∧ i.column = n.span.first.column ∧
    i.message = if n.kind = .error then "Syntax error".toList else "Missing ".toList ++ n.kind.label

namespace Node

/-! ## A walk with any flag -/

mutual

/-- The issues found by a walk that leaves a node, and what is below it, if it has no flag and
    is not missing. -/
def flaggedIssues (flag : Node → Bool) : Node → List Issue
  | ⟨kind, role, span, missing, children⟩ =>
    let n : Node := ⟨kind, role, span, missing, children⟩
    if flag n || missing then n.ownIssue ++ flaggedIssuesOf flag children else []

def flaggedIssuesOf (flag : Node → Bool) : List Node → List Issue
  | [] => []
  | n :: ns => n.flaggedIssues flag ++ flaggedIssuesOf flag ns

end

mutual

/-- The issues of a tree are found by the flag that is computed from it. -/
theorem flaggedIssues_hasIssue (n : Node) : n.flaggedIssues hasIssue = n.issues := by
  obtain ⟨kind, role, span, missing, children⟩ := n
  rw [flaggedIssues, issues, flaggedIssuesOf_hasIssue children]
  -- a missing node has the flag
  have hguard : (hasIssue ⟨kind, role, span, missing, children⟩ || missing) =
      hasIssue ⟨kind, role, span, missing, children⟩ := by
    cases missing <;> simp [hasIssue]
  rw [hguard]

theorem flaggedIssuesOf_hasIssue (ns : List Node) : flaggedIssuesOf hasIssue ns = issuesOf ns := by
  cases ns with
  | nil => rfl
  | cons n ns => rw [flaggedIssuesOf, issuesOf, flaggedIssues_hasIssue n, flaggedIssuesOf_hasIssue ns]

end

/-! ## All addresses -/

mutual

/-- The addresses of all nodes of a tree, in document order. -/
def addresses : Node → List Address
  | ⟨_, _, _, _, children⟩ => [] :: addressesFrom 0 children

/-- The addresses in nodes that follow one another, the first of them with a given index. -/
def addressesFrom (k : Nat) : List Node → List Address
  | [] => []
  | n :: ns => n.addresses.map (k :: ·) ++ addressesFrom (k + 1) ns

end

mutual

theorem mem_addresses (n : Node) (a : Address) : a ∈ n.addresses ↔ ∃ m, n.at? a = some m := by
  obtain ⟨kind, role, span, missing, children⟩ := n
  rw [addresses, List.mem_cons, mem_addressesFrom]
  cases a with
  | nil => simp [at?]
  | cons i a => simp [at?, Option.bind_eq_some_iff, exists_comm]

theorem mem_addressesFrom (k : Nat) (ns : List Node) (a : Address) :
    a ∈ addressesFrom k ns ↔ ∃ i b n m, a = (k + i) :: b ∧ ns[i]? = some n ∧ n.at? b = some m := by
  cases ns with
  | nil => simp [addressesFrom]
  | cons n ns =>
    rw [addressesFrom, List.mem_append, List.mem_map, mem_addressesFrom (k + 1) ns]
    constructor
    · rintro (⟨b, hb, rfl⟩ | ⟨i, b, n', m, rfl, hn, hm⟩)
      · obtain ⟨m, hm⟩ := (mem_addresses n b).mp hb
        exact ⟨0, b, n, m, rfl, rfl, hm⟩
      · exact ⟨i + 1, b, n', m, by rw [Nat.add_right_comm, Nat.add_assoc], hn, hm⟩
    · rintro ⟨i, b, n', m, rfl, hn, hm⟩
      cases i with
      | zero =>
        cases hn
        exact .inl ⟨b, (mem_addresses n b).mpr ⟨m, hm⟩, rfl⟩
      | succ i => exact .inr ⟨i, b, n', m, by rw [Nat.add_right_comm, Nat.add_assoc], hn, hm⟩

end

mutual

theorem addresses_sorted (n : Node) : n.addresses.Pairwise (· < ·) := by
  obtain ⟨kind, role, span, missing, children⟩ := n
  rw [addresses]
  refine .cons (fun a ha => ?_) (addressesFrom_sorted 0 children)
  obtain ⟨i, b, _, _, rfl, -, -⟩ := (mem_addressesFrom 0 children a).mp ha
  exact List.nil_lt_cons _ _

theorem addressesFrom_sorted (k : Nat) (ns : List Node) : (addressesFrom k ns).Pairwise (· < ·) := by
  cases ns with
  | nil => exact .nil
  | cons n ns =>
    rw [addressesFrom]
    refine List.pairwise_append.mpr ⟨?_, addressesFrom_sorted (k + 1) ns, fun a ha b hb => ?_⟩
    · exact (addresses_sorted n).map _ fun a b hab => List.cons_lt_cons_self.mpr hab
    · obtain ⟨a, -, rfl⟩ := List.mem_map.mp ha
      obtain ⟨i, b, _, _, rfl, -, -⟩ := (mem_addressesFrom (k + 1) ns b).mp hb
      exact List.cons_lt_cons_iff.mpr (.inl (by omega))

end

/-! ## Faults -/

/-- What is wrong at an address, if there is a node and something is wrong with it. -/
def issueAt? (n : Node) (a : Address) : Option Issue :=
  (n.at? a).bind fun m => m.fault?.map fun text => ⟨m.span.first.row + 1, m.span.first.column, text⟩

theorem ownIssue_eq (n : Node) : n.ownIssue = (n.issueAt? []).toList := rfl

theorem fault?_eq (n : Node) :
    n.fault? =
      if n.kind = .error ∨ n.missing = true then
        some (if n.kind = .error then "Syntax error".toList else "Missing ".toList ++ n.kind.label)
      else none := by
  unfold fault? isError
  by_cases hkind : n.kind = .error
  · rw [if_pos (beq_iff_eq.mpr hkind), if_pos (.inl hkind), if_pos hkind]
  · rw [if_neg (by rwa [beq_iff_eq]), if_neg hkind]
    exact if_congr (or_iff_right hkind).symm rfl rfl

theorem isIssueAt_of_issueAt? {n : Node} {a : Address} {i : Issue} (h : n.issueAt? a = some i) :
    IsFaulty n a ∧ IsIssueAt n i a := by
  obtain ⟨m, hm, h⟩ := Option.bind_eq_some_iff.mp h
  obtain ⟨text, htext, rfl⟩ := Option.map_eq_some_iff.mp h
  rw [fault?_eq] at htext
  split at htext
  · rename_i hfaulty
    cases htext
    exact ⟨⟨m, hm, hfaulty⟩, m, hm, rfl, rfl, rfl⟩
  · cases htext

theorem issueAt?_ne_none {n : Node} {a : Address} (h : IsFaulty n a) : n.issueAt? a ≠ none := by
  obtain ⟨m, hm, hfaulty⟩ := h
  rw [issueAt?, hm, Option.bind_some, fault?_eq, if_pos hfaulty, Option.map_some]
  exact Option.some_ne_none _

mutual

/-- A node has the flag exactly if something is wrong with it or with a node below it. -/
theorem hasIssue_iff (n : Node) : n.hasIssue = true ↔ ∃ a, IsFaulty n a := by
  obtain ⟨kind, role, span, missing, children⟩ := n
  rw [hasIssue, Bool.or_eq_true, Bool.or_eq_true, beq_iff_eq, anyIssue_iff]
  constructor
  · rintro (hown | ⟨i, c, b, hc, m, hm, hfaulty⟩)
    · exact ⟨[], _, rfl, hown⟩
    · exact ⟨i :: b, m, by rw [at?, hc, Option.bind_some, hm], hfaulty⟩
  · rintro ⟨a, m, hm, hfaulty⟩
    cases a with
    | nil =>
      cases hm
      exact .inl hfaulty
    | cons i b =>
      obtain ⟨c, hc, hm⟩ := Option.bind_eq_some_iff.mp hm
      exact .inr ⟨i, c, b, hc, m, hm, hfaulty⟩

theorem anyIssue_iff (ns : List Node) : anyIssue ns = true ↔ ∃ (i : Nat) (n : Node) (a : Address), ns[i]? = some n ∧ IsFaulty n a := by
  cases ns with
  | nil => simp [anyIssue]
  | cons n ns =>
    rw [anyIssue, Bool.or_eq_true, hasIssue_iff n, anyIssue_iff ns]
    constructor
    · rintro (⟨a, ha⟩ | ⟨i, m, a, hm, ha⟩)
      · exact ⟨0, n, a, rfl, ha⟩
      · exact ⟨i + 1, m, a, hm, ha⟩
    · rintro ⟨i, m, a, hm, ha⟩
      cases i with
      | zero =>
        cases hm
        exact .inl ⟨a, ha⟩
      | succ i => exact .inr ⟨i, m, a, hm, ha⟩

end

/-! ## The walk leaves out nothing that is wrong -/

/-- A flag is on every node of a tree at or below which something is wrong. -/
def IsFlagged (flag : Node → Bool) (n : Node) : Prop := ∀ a m b, n.at? a = some m → IsFaulty m b → flag m = true

theorem IsFlagged.child {flag : Node → Bool} {n c : Node} {i : Nat} (h : IsFlagged flag n)
    (hc : n.children[i]? = some c) : IsFlagged flag c :=
  fun a m b hm hb => h (i :: a) m b (by rw [at?, hc, Option.bind_some, hm]) hb

mutual

/-- The walk finds what one finds that enters every node. -/
theorem flaggedIssues_eq {flag : Node → Bool} (n : Node) (h : IsFlagged flag n) :
    n.flaggedIssues flag = n.addresses.filterMap n.issueAt? := by
  obtain ⟨kind, role, span, missing, children⟩ := n
  have hbelow := flaggedIssuesOf_eq 0 children (fun i c hc => h.child hc)
    (f := issueAt? ⟨kind, role, span, missing, children⟩)
    fun i c b hc => by rw [issueAt?, at?, Nat.zero_add, hc, Option.bind_some, issueAt?]
  rw [flaggedIssues]
  split
  · rw [addresses, ownIssue_eq, hbelow]
    cases hown : issueAt? ⟨kind, role, span, missing, children⟩ [] with
    | none => rw [List.filterMap_cons_none hown, Option.toList_none, List.nil_append]
    | some i => rw [List.filterMap_cons_some hown, Option.toList_some, List.singleton_append]
  · -- nothing is wrong in what is left out
    rename_i hguard
    have hflag := (Bool.or_eq_false_iff.mp (Bool.eq_false_iff.mpr hguard)).1
    refine (List.filterMap_eq_nil_iff.mpr fun a _ => ?_).symm
    rw [← Option.not_isSome_iff_eq_none, Option.isSome_iff_exists]
    rintro ⟨i, hi⟩
    have hsome := h [] _ a rfl (isIssueAt_of_issueAt? hi).1
    rw [hflag] at hsome
    cases hsome

theorem flaggedIssuesOf_eq {flag : Node → Bool} (k : Nat) (ns : List Node)
    (h : ∀ (i : Nat) c, ns[i]? = some c → IsFlagged flag c) {f : Address → Option Issue}
    (hf : ∀ (i : Nat) c b, ns[i]? = some c → f ((k + i) :: b) = c.issueAt? b) :
    flaggedIssuesOf flag ns = (addressesFrom k ns).filterMap f := by
  cases ns with
  | nil => rfl
  | cons n ns =>
    have hrest := flaggedIssuesOf_eq (k + 1) ns (fun i c hc => h (i + 1) c hc)
      fun i c b hc => by rw [Nat.add_assoc, Nat.add_comm 1]; exact hf (i + 1) c b hc
    have hfirst : f ∘ (k :: ·) = n.issueAt? := funext fun b => hf 0 n b rfl
    rw [flaggedIssuesOf, addressesFrom, List.filterMap_append, List.filterMap_map, hfirst, ← hrest,
      flaggedIssues_eq n (h 0 n rfl)]

end

theorem isFlagged_hasIssue (n : Node) : IsFlagged hasIssue n := fun _ m b _ hb => (hasIssue_iff m).mpr ⟨b, hb⟩

end Node

/-! ## Issues by address -/

theorem issues_eq_filterMap (n : Node) : n.issues = n.addresses.filterMap n.issueAt? :=
  (Node.flaggedIssues_hasIssue n).symm.trans (Node.flaggedIssues_eq n (Node.isFlagged_hasIssue n))

/-- Whatever flag tells where something is wrong, a walk by it finds the issues of the tree. They
    are, each once and in document order, those of its errors and missing nodes. -/
theorem issues_by_address {hasError : Node → Bool} {root : Node}
    (hflag : ∀ a n, root.at? a = some n → (hasError n = true ↔ ∃ b, IsFaulty n b)) :
    root.flaggedIssues hasError = root.issues ∧
      ∃ addresses : List Address, addresses.Pairwise (· < ·) ∧ (∀ a, a ∈ addresses ↔ IsFaulty root a) ∧
        List.Forall₂ (IsIssueAt root) root.issues addresses := by
  have hwalk := Node.flaggedIssues_eq root fun a n b hn hb => (hflag a n hn).mpr ⟨b, hb⟩
  refine ⟨hwalk.trans (issues_eq_filterMap root).symm, ?_⟩
  obtain ⟨cs, hsub, hfound, hrest⟩ := forall₂_filterMap (R := Eq) root.issueAt? (List.forall₂_refl root.addresses)
  refine ⟨cs, (Node.addresses_sorted root).sublist hsub, fun a => ⟨fun ha => ?_, fun ha => ?_⟩, ?_⟩
  · obtain ⟨i, -, _, rfl, hi⟩ := exists_of_mem_forall₂ hfound.flip ha
    exact (Node.isIssueAt_of_issueAt? hi).1
  · have ⟨m, hm, _⟩ := ha
    have hmem := (Node.mem_addresses root a).mpr ⟨m, hm⟩
    refine (hrest a hmem).resolve_right ?_
    rintro ⟨_, rfl, hnone⟩
    exact Node.issueAt?_ne_none ha hnone
  · rw [issues_eq_filterMap]
    refine hfound.imp ?_
    rintro i a ⟨_, rfl, hi⟩
    exact (Node.isIssueAt_of_issueAt? hi).2

/-- A sound statement, an error that holds a missing token and another error with one, and a
    statement without its semicolon. -/
def issueSample : Node :=
  let place (row column : Nat) : Pos := ⟨10 * row + column, row, column⟩
  let stretch (row first stop : Nat) : Span := ⟨place row first, place row stop⟩
  ⟨.program, none, ⟨place 0 0, place 2 5⟩, false,
    [⟨.phrase, none, stretch 0 0 9, false, [.leaf .name none (stretch 0 0 4)]⟩,
     ⟨.error, none, stretch 1 0 8, false,
       [.assumed (.token ")".toList) none (place 1 3),
        ⟨.error, none, stretch 1 4 7, false, [.assumed .name none (place 1 6)]⟩]⟩,
     ⟨.phrase, none, stretch 2 0 5, false,
       [.leaf .name none (stretch 2 0 5), .assumed (.token ";".toList) none (place 2 5)]⟩]⟩

theorem issues_by_address_issueSample :
    (∀ a n, issueSample.at? a = some n → (n.hasIssue = true ↔ ∃ b, IsFaulty n b)) ∧
      issueSample.issues =
        [⟨2, 0, "Syntax error".toList⟩, ⟨2, 3, "Missing )".toList⟩, ⟨2, 4, "Syntax error".toList⟩,
         ⟨2, 6, "Missing name".toList⟩, ⟨3, 5, "Missing ;".toList⟩] ∧
      ∃ addresses : List Address, addresses.Pairwise (· < ·) ∧ (∀ a, a ∈ addresses ↔ IsFaulty issueSample a) ∧
        List.Forall₂ (IsIssueAt issueSample) issueSample.issues addresses := by
  have hflag : ∀ a n, issueSample.at? a = some n → (n.hasIssue = true ↔ ∃ b, IsFaulty n b) :=
    fun _ n _ => n.hasIssue_iff
  exact ⟨hflag, by decide, (issues_by_address hflag).2⟩

end ClassOutline.Tree
