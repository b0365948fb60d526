import Mathlib.Data.List.Induction
import Mathlib.Data.List.Shortlex
import SLanguage.Proofs.CallGraph

/-!
# The breadth-first order of a call tree

The calls of a tree lie on levels: the tree itself, the calls among its arguments, the calls among
theirs, and so on (`Call.level`). The queue lists one level after the other, from the first to the
last that is not empty. An occurrence of a call is named by its address, the places of the arguments
to take on the way down to it (`Call.at?`); the queue meets the addresses in the order of their
length, and those of one length in lexicographic order, each once.
-/

namespace SLanguage

namespace Call

/-- The call at a place among the arguments. -/
def child? (c : Call) (place : Nat) : Option Call := c.arguments[place]?.bind Argument.toCall?

/-- The call at an address. -/
def at? (c : Call) : List Nat → Option Call
  | [] => some c
  | place :: rest => (c.child? place).bind fun d => d.at? rest

/-- The calls that stand `n` calls below the root, from left to right. -/
def level (c : Call) : Nat → List Call
  | 0 => [c]
  | n + 1 => c.nested.flatMap fun d => d.level n

/-- The addresses of a level. -/
def addresses (c : Call) : Nat → List (List Nat)
  | 0 => [[]]
  | n + 1 => (List.range c.arguments.length).flatMap fun place =>
      (c.child? place).toList.flatMap fun d => (d.addresses n).map (place :: ·)

/-! ## The queue, level by level -/

/-- The calls in the queue come first, and the calls nested in them wait behind the rest. -/
theorem walk_append (now next : List Call) :
    walk (now ++ next) = now ++ walk (next ++ now.flatMap nested) := by
  induction now generalizing next with
  | nil => simp
  | cons c now ih =>
    rw [List.cons_append, walk, List.append_assoc, ih, List.flatMap_cons, List.cons_append,
      List.append_assoc]

theorem walk_levels (n : Nat) (queue : List Call) :
    walk queue = ((List.range n).flatMap fun k => queue.flatMap (·.level k)) ++
      walk (queue.flatMap (·.level n)) := by
  induction n generalizing queue with
  | zero => simp [level]
  | succ n ih =>
    have hsucc : ∀ k, (queue.flatMap nested).flatMap (·.level k) =
        queue.flatMap (·.level (k + 1)) := fun k => List.flatMap_assoc
    have hround := walk_append queue []
    rw [List.append_nil, List.nil_append] at hround
    rw [hround, ih, List.range_succ_eq_map, List.flatMap_cons, List.flatMap_map]
    simp only [hsucc, Nat.succ_eq_add_one, List.append_assoc]
    simp [level]

theorem listDepth_le_iff {as : List Argument} {n : Nat} :
    Argument.listDepth as ≤ n ↔ ∀ d ∈ as.filterMap Argument.toCall?, d.depth ≤ n := by
  induction as with
  | nil => simp [Argument.listDepth]
  | cons a rest ih =>
    rw [Argument.listDepth, Nat.max_le, ih]
    cases a with
    | leaf v => simp [Argument.depth, Argument.toCall?]
    | call name arguments =>
      have hcons : (Argument.call name arguments :: rest).filterMap Argument.toCall? =
          ⟨name, arguments⟩ :: rest.filterMap Argument.toCall? := rfl
      rw [hcons, List.forall_mem_cons]
      rfl

theorem depth_le_succ_iff {c : Call} {n : Nat} : c.depth ≤ n + 1 ↔ ∀ d ∈ c.nested, d.depth ≤ n := by
  rw [nested, ← listDepth_le_iff, depth, toArgument, Argument.depth]
  omega

theorem level_eq_nil_iff {c : Call} {n : Nat} : c.level n = [] ↔ c.depth ≤ n := by
  induction n generalizing c with
  | zero =>
    have hpos : 0 < c.depth := by
      rw [depth, toArgument, Argument.depth]
      omega
    rw [level]
    exact iff_of_false (List.cons_ne_nil _ _) (by omega)
  | succ n ih =>
    rw [level, List.flatMap_eq_nil_iff, depth_le_succ_iff]
    exact forall_congr' fun d => imp_congr_right fun _ => ih

theorem breadthFirst_eq_levels (c : Call) :
    c.breadthFirst = (List.range c.depth).flatMap c.level := by
  have hlast : c.level c.depth = [] := level_eq_nil_iff.mpr (Nat.le_refl _)
  rw [breadthFirst, walk_levels c.depth]
  simp [hlast, walk]

/-! ## Addresses -/

theorem flatMap_range_getElem? {α β : Type} (f : α → Option β) (xs : List α) :
    ((List.range xs.length).flatMap fun k => (xs[k]?.bind f).toList) = xs.filterMap f := by
  induction xs with
  | nil => rfl
  | cons x xs ih =>
    rw [List.length_cons, List.range_succ_eq_map, List.flatMap_cons, List.flatMap_map]
    simp only [Nat.succ_eq_add_one, List.getElem?_cons_succ, List.getElem?_cons_zero, ih,
      Option.bind_some]
    cases hx : f x <;> simp [hx]

theorem nested_eq (c : Call) :
    c.nested = (List.range c.arguments.length).flatMap fun k => (c.child? k).toList :=
  (flatMap_range_getElem? Argument.toCall? c.arguments).symm

theorem lt_of_child? {c d : Call} {place : Nat} (h : c.child? place = some d) :
    place < c.arguments.length := by
  obtain ⟨a, ha, -⟩ := Option.bind_eq_some_iff.mp h
  exact (List.getElem?_eq_some_iff.mp ha).1

theorem map_level (c : Call) (n : Nat) : (c.level n).map some = (c.addresses n).map c.at? := by
  induction n generalizing c with
  | zero => rfl
  | succ n ih =>
    rw [level, addresses, nested_eq, List.flatMap_assoc, List.map_flatMap, List.map_flatMap]
    refine congrArg (fun f => (List.range c.arguments.length).flatMap f) (funext fun place => ?_)
    cases hd : c.child? place with
    | none => rfl
    | some d =>
      have hat : ∀ rest, c.at? (place :: rest) = d.at? rest := fun rest => by
        rw [at?, hd, Option.bind_some]
      simp [hat, ih]

theorem mem_addresses {c : Call} {n : Nat} {address : List Nat} :
    address ∈ c.addresses n ↔ address.length = n ∧ ∃ d, c.at? address = some d := by
  induction n generalizing c address with
  | zero =>
    rw [addresses, List.mem_singleton, List.length_eq_zero_iff]
    refine (and_iff_left_of_imp ?_).symm
    rintro rfl
    exact ⟨c, rfl⟩
  | succ n ih =>
    rw [addresses]
    simp only [List.mem_flatMap, List.mem_range, List.mem_map, Option.mem_toList, ih]
    constructor
    · rintro ⟨place, -, d, hd, rest, ⟨rfl, e, he⟩, rfl⟩
      exact ⟨rfl, e, by rw [at?, hd]; exact he⟩
    · rintro ⟨hlen, e, he⟩
      cases address with
      | nil => cases hlen
      | cons place rest =>
        obtain ⟨d, hd, he⟩ := Option.bind_eq_some_iff.mp he
        exact ⟨place, lt_of_child? hd, d, hd, rest, ⟨Nat.succ.inj hlen, e, he⟩, rfl⟩

theorem pairwise_addresses (c : Call) (n : Nat) :
    (c.addresses n).Pairwise (List.Lex (· < ·)) := by
  induction n generalizing c with
  | zero => exact List.pairwise_singleton _ _
  | succ n ih =>
    refine List.pairwise_flatMap.mpr ⟨fun place _ => ?_, List.pairwise_lt_range.imp ?_⟩
    · cases c.child? place with
      | none => exact .nil
      | some d =>
        rw [Option.toList_some, List.flatMap_singleton, List.pairwise_map]
        exact (ih d).imp .cons
    · -- addresses through different arguments differ at their first place
      intro place place' hlt x hx y hy
      simp only [List.mem_flatMap, List.mem_map] at hx hy
      obtain ⟨-, -, rest, -, rfl⟩ := hx
      obtain ⟨-, -, rest', -, rfl⟩ := hy
      exact .rel hlt

/-- All addresses of the tree, one level after the other. -/
def allAddresses (c : Call) : List (List Nat) := (List.range c.depth).flatMap c.addresses

theorem pairwise_allAddresses (c : Call) :
    c.allAddresses.Pairwise (List.Shortlex (· < ·)) := by
  refine List.pairwise_flatMap.mpr ⟨fun n _ => ?_, List.pairwise_lt_range.imp ?_⟩
  · refine (pairwise_addresses c n).imp_of_mem fun hx hy hlex => ?_
    exact .of_lex ((mem_addresses.mp hx).1.trans (mem_addresses.mp hy).1.symm) hlex
  · intro n m hlt x hx y hy
    refine .of_length_lt ?_
    rw [(mem_addresses.mp hx).1, (mem_addresses.mp hy).1]
    exact hlt

theorem addresses_eq_nil {c : Call} {n : Nat} (h : c.depth ≤ n) : c.addresses n = [] := by
  have hmap := map_level c n
  rw [level_eq_nil_iff.mpr h, List.map_nil] at hmap
  exact List.map_eq_nil_iff.mp hmap.symm

theorem lt_depth_of_at? {c d : Call} {address : List Nat} (h : c.at? address = some d) :
    address.length < c.depth := by
  by_contra hle
  have hmem : address ∈ c.addresses address.length := mem_addresses.mpr ⟨rfl, d, h⟩
  rw [addresses_eq_nil (Nat.le_of_not_lt hle)] at hmem
  cases hmem

theorem mem_allAddresses {c : Call} {address : List Nat} :
    address ∈ c.allAddresses ↔ ∃ d, c.at? address = some d := by
  simp only [allAddresses, List.mem_flatMap, List.mem_range, mem_addresses]
  constructor
  · rintro ⟨_, -, -, h⟩
    exact h
  · rintro ⟨d, h⟩
    exact ⟨address.length, lt_depth_of_at? h, rfl, d, h⟩

theorem filter_addresses (c : Call) (m n : Nat) :
    (c.addresses m).filter (·.length = n) = if m = n then c.addresses n else [] := by
  split
  · next h =>
    subst h
    exact List.filter_eq_self.mpr fun x hx => decide_eq_true (mem_addresses.mp hx).1
  · next h =>
    refine List.filter_eq_nil_iff.mpr fun x hx hn => h ?_
    rw [← (mem_addresses.mp hx).1]
    exact of_decide_eq_true hn

/-- The addresses of one length are those of a level. -/
theorem filter_allAddresses (c : Call) (n : Nat) :
    c.allAddresses.filter (·.length = n) = c.addresses n := by
  have hrange : ∀ d, ((List.range d).flatMap fun m => if m = n then c.addresses n else []) =
      if n < d then c.addresses n else [] := by
    intro d
    induction d with
    | zero => rfl
    | succ d ih =>
      rw [List.range_succ, List.flatMap_append, ih, List.flatMap_singleton]
      by_cases hd : d = n
      · simp [hd]
      · by_cases hlt : n < d
        · simp [hd, hlt, Nat.lt_succ_of_lt hlt]
        · simp [hd, hlt, show ¬ n < d + 1 by omega]
  rw [allAddresses, List.filter_flatMap]
  simp only [filter_addresses, hrange]
  split
  · rfl
  · next h => exact (addresses_eq_nil (Nat.le_of_not_lt h)).symm

theorem map_breadthFirst (c : Call) : c.breadthFirst.map some = c.allAddresses.map c.at? := by
  rw [breadthFirst_eq_levels, allAddresses, List.map_flatMap, List.map_flatMap]
  simp only [map_level]

end Call

/-! ## The names called in a sequence -/

/-- The list without the entries that stand further left too. -/
def firstOccurrences (names : List String) : List String :=
  (names.zipIdx.filter fun x => x.1 ∉ names.take x.2).map (·.1)

theorem firstOccurrences_concat (names : List String) (name : String) :
    firstOccurrences (names ++ [name]) =
      firstOccurrences names ++ if name ∈ names then [] else [name] := by
  have hold : (names.zipIdx.filter fun x => x.1 ∉ (names ++ [name]).take x.2) =
      names.zipIdx.filter fun x => x.1 ∉ names.take x.2 := by
    refine List.filter_congr fun x hx => ?_
    have hlt := (List.mem_zipIdx hx).2.1
    rw [List.take_append_of_le_length (by omega)]
  rw [firstOccurrences, List.zipIdx_append, List.filter_append, List.map_append, hold]
  refine congrArg (firstOccurrences names ++ ·) ?_
  by_cases h : name ∈ names <;> simp [h]

theorem eraseDups_eq_firstOccurrences (names : List String) :
    names.eraseDups = firstOccurrences names := by
  induction names using List.reverseRecOn with
  | nil => rfl
  | append_singleton names name ih =>
    rw [List.eraseDups_append, firstOccurrences_concat, ih]
    refine congrArg (firstOccurrences names ++ ·) ?_
    by_cases h : name ∈ names <;> simp [List.removeAll, List.filter, h, List.eraseDups_cons]

theorem calleesOf_eq_firstOccurrences (code : List Instruction) :
    calleesOf code = firstOccurrences (code.flatMap fun i => i.call?.toList.flatMap fun call =>
      call.breadthFirst.map (·.name)) := by
  rw [calleesOf, eraseDups_eq_firstOccurrences, List.filterMap_eq_flatMap_toList,
    List.flatMap_assoc]

/-- The breadth-first list of a tree is that of its levels, none of them empty. It holds each
occurrence of a call once, by depth and then from left to right. The names called in a sequence are
those of its trees in this order, each where it comes first. -/
theorem Call.breadthFirst_level_order (c : Call) (code : List Instruction) :
    c.breadthFirst = (List.range c.depth).flatMap c.level ∧
    (∀ n, c.level n ≠ [] ↔ n < c.depth) ∧
    (∃ addresses : List (List Nat), addresses.Pairwise (List.Shortlex (· < ·)) ∧
      (∀ address, address ∈ addresses ↔ ∃ d, c.at? address = some d) ∧
      c.breadthFirst.map some = addresses.map c.at? ∧
      ∀ n, (c.level n).map some = (addresses.filter (·.length = n)).map c.at?) ∧
    calleesOf code = firstOccurrences (code.flatMap fun i => i.call?.toList.flatMap fun call =>
      call.breadthFirst.map (·.name)) := by
  refine ⟨c.breadthFirst_eq_levels, fun n => ?_, ⟨c.allAddresses, c.pairwise_allAddresses,
    fun _ => mem_allAddresses, c.map_breadthFirst, fun n => ?_⟩, calleesOf_eq_firstOccurrences code⟩
  · rw [Ne, level_eq_nil_iff, Nat.not_le]
  · rw [map_level, filter_allAddresses]

/-- A call further left comes later if it stands deeper. -/
example : (Call.breadthFirst ⟨"AND", [.call "NOT" [.call "EQUAL" [.leaf (.input 1)]],
    .call "LESS" [.leaf .result]]⟩).map (·.name) = ["AND", "NOT", "LESS", "EQUAL"] := by
  cbv

end SLanguage
