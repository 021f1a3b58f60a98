import ArborDb.Txn.Context

/-!
# Index scope patterns

A pattern is a slash-separated path in which a `*` segment matches any single child. Its entities
are the a-nodes at paths that match it; `affectedEntities` walks the data table to those of them
that lie on the root-to-a-node line of a path: above it, at it, or below it.
-/

namespace ArborDb

/-! ## The engine's walk -/

/-- The child key under a directory of the data table. -/
def childOf (data : SortedMap AKey Entry) (parent : AKey) (name : Str) : Option AKey :=
  Layout.childOf data.get parent name

/-- The child keys of a directory of the data table, none if it is absent or a file. -/
def childrenOf (data : SortedMap AKey Entry) (akey : AKey) : List AKey :=
  match data.get akey with
  | some (.dir children) => children.values
  | _ => []

/-! ## Patterns -/

inductive PatternSeg where
  /-- A fixed name that must match exactly. -/
  | lit (name : Str)
  /-- `*`: matches any single child. -/
  | star
  deriving DecidableEq

structure Pattern where
  segs : List PatternSeg
  deriving DecidableEq

namespace Pattern

/-- The pieces of a text between its slashes. -/
def splitSlash : List Char → List (List Char)
  | [] => [[]]
  | c :: cs =>
    if c = '/' then [] :: splitSlash cs
    else match splitSlash cs with
      | [] => [[c]]
      | token :: rest => (c :: token) :: rest

/-- The segment a token spells. -/
def parseSeg (pattern : Str) (token : List Char) : AdbResult PatternSeg :=
  if token.isEmpty then
    .error (.invalidPath ("empty segment in index pattern '" ++ pattern.text ++ "'"))
  else if token = ['*'] then .ok .star
  else .ok (.lit ⟨String.ofList token⟩)

/-- Parses a pattern; the empty text is the root pattern. -/
def parse (pattern : Str) : AdbResult Pattern :=
  if pattern.text.isEmpty then .ok ⟨[]⟩
  else do
    let segs ← (splitSlash pattern.text.toList).mapM (parseSeg pattern)
    return ⟨segs⟩

def depth (p : Pattern) : Nat := p.segs.length

variable (data : SortedMap AKey Entry)

/-- The entities that the segments lead to from `cur`, pruned to the names that `scope` still has.
Within the scope a literal must be the name the scope takes and a wildcard binds to that name; past
it every child is in scope. -/
def walk : List PatternSeg → AKey → List Str → List AKey
  | [], cur, _ => [cur]
  | .lit name :: segs, cur, [] =>
    match childOf data cur name with
    | some c => walk segs c []
    | none => []
  | .lit name :: segs, cur, s :: scope =>
    if s ≠ name then []
    else match childOf data cur name with
      | some c => walk segs c scope
      | none => []
  | .star :: segs, cur, s :: scope =>
    match childOf data cur s with
    | some c => walk segs c scope
    | none => []
  | .star :: segs, cur, [] => (childrenOf data cur).flatMap fun c => walk segs c []

/-- The entities on the line of a path. -/
def affectedEntities (p : Pattern) (scope : APath) : List AKey := walk data p.segs .root scope.names

end Pattern

/-! ## What the walk selects -/

/-- A name that a segment stands for. -/
def PatternSeg.Matches : PatternSeg → Str → Prop
  | .lit name, n => name = n
  | .star, _ => True

/-- A chain of names that matches segment by segment. -/
def PatternSeg.MatchesAll (segs : List PatternSeg) (names : List Str) : Prop :=
  List.Forall₂ PatternSeg.Matches segs names

/-- One of two chains of names is a prefix of the other. -/
def OnLine (names scope : List Str) : Prop := names <+: scope ∨ scope <+: names

theorem onLine_nil (names : List Str) : OnLine names [] := .inr (List.nil_prefix)

theorem onLine_cons {n s : Str} {names scope : List Str} :
    OnLine (n :: names) (s :: scope) ↔ n = s ∧ OnLine names scope := by
  rw [OnLine, OnLine, List.cons_prefix_cons, List.cons_prefix_cons, eq_comm (a := s), ← and_or_left]

section Walk

variable {data : SortedMap AKey Entry}

theorem mem_childrenOf {k c : AKey} : c ∈ childrenOf data k ↔ ∃ name, childOf data k name = some c := by
  unfold childrenOf childOf Layout.childOf
  cases data.get k with
  | none => simp
  | some entry =>
    cases entry with
    | leaf blob => simp
    | branch children =>
      constructor
      · intro hc
        obtain ⟨⟨name, c'⟩, hmem, rfl⟩ := List.mem_map.1 hc
        exact ⟨name, SortedMap.get_iff_mem.2 hmem⟩
      · rintro ⟨name, hname⟩
        exact List.mem_map.2 ⟨_, SortedMap.get_iff_mem.1 hname, rfl⟩

/-- One step of the walk: a link whose name the segment matches and which stays on the line. -/
theorem Pattern.mem_walk_cons {seg : PatternSeg} {segs : List PatternSeg} {cur k : AKey}
    {scope : List Str} :
    k ∈ walk data (seg :: segs) cur scope ↔
      ∃ n c, childOf data cur n = some c ∧ seg.Matches n ∧ (∀ s ∈ scope.head?, n = s) ∧
        k ∈ walk data segs c scope.tail := by
  have hmatch : ∀ (o : Option AKey) (scope : List Str),
      k ∈ (match o with
        | some c => walk data segs c scope
        | none => []) ↔ ∃ c, o = some c ∧ k ∈ walk data segs c scope := by
    intro o scope
    cases o <;> simp
  cases seg with
  | lit name =>
    cases scope with
    | nil =>
      rw [walk, hmatch]
      constructor
      · rintro ⟨c, hc, hk⟩
        exact ⟨name, c, hc, rfl, by simp, hk⟩
      · rintro ⟨_, c, hc, rfl, -, hk⟩
        exact ⟨c, hc, hk⟩
    | cons s scope =>
      rw [walk]
      split_ifs with hs
      · constructor
        · intro hk
          cases hk
        · rintro ⟨_, c, -, rfl, hline, -⟩
          exact absurd (hline s rfl).symm hs
      · obtain rfl : s = name := not_not.1 hs
        rw [hmatch]
        constructor
        · rintro ⟨c, hc, hk⟩
          exact ⟨s, c, hc, rfl, by simp, hk⟩
        · rintro ⟨_, c, hc, rfl, -, hk⟩
          exact ⟨c, hc, hk⟩
  | star =>
    cases scope with
    | nil =>
      rw [walk, List.mem_flatMap]
      constructor
      · rintro ⟨c, hc, hk⟩
        obtain ⟨name, hname⟩ := mem_childrenOf.1 hc
        exact ⟨name, c, hname, trivial, by simp, hk⟩
      · rintro ⟨name, c, hname, -, -, hk⟩
        exact ⟨c, mem_childrenOf.2 ⟨name, hname⟩, hk⟩
    | cons s scope =>
      rw [walk, hmatch]
      constructor
      · rintro ⟨c, hc, hk⟩
        exact ⟨s, c, hc, trivial, by simp, hk⟩
      · rintro ⟨n, c, hc, -, hline, hk⟩
        rw [hline s rfl] at hc
        exact ⟨c, hc, hk⟩

/-- **The walk selects the a-nodes that a matching chain on the line leads to.** -/
theorem Pattern.mem_walk_iff {segs : List PatternSeg} {cur k : AKey} {scope : List Str} :
    k ∈ walk data segs cur scope ↔
      ∃ names, PatternSeg.MatchesAll segs names ∧ Layout.walk data.get cur names = some k ∧
        OnLine names scope := by
  induction segs generalizing cur scope with
  | nil =>
    rw [walk, List.mem_singleton]
    constructor
    · rintro rfl
      exact ⟨[], .nil, rfl, .inl List.nil_prefix⟩
    · rintro ⟨names, hmatch, hwalk, -⟩
      cases hmatch
      exact (Option.some.inj hwalk).symm
  | cons seg segs ih =>
    rw [mem_walk_cons]
    constructor
    · rintro ⟨n, c, hc, hn, hline, hk⟩
      obtain ⟨names, hmatch, hwalk, hrest⟩ := ih.1 hk
      refine ⟨n :: names, .cons hn hmatch, ?_, ?_⟩
      · rw [Layout.walk, show Layout.childOf data.get cur n = some c from hc]
        exact hwalk
      · cases scope with
        | nil => exact onLine_nil _
        | cons s scope => exact onLine_cons.2 ⟨hline s rfl, hrest⟩
    · rintro ⟨names, hmatch, hwalk, hline⟩
      cases hmatch with
      | @cons _ n _ rest hn hmatch =>
        rw [Layout.walk] at hwalk
        obtain ⟨c, hc, hwalk⟩ := Option.bind_eq_some_iff.1 hwalk
        cases scope with
        | nil => exact ⟨n, c, hc, hn, by simp, ih.2 ⟨rest, hmatch, hwalk, onLine_nil rest⟩⟩
        | cons s scope =>
          obtain ⟨rfl, hrest⟩ := onLine_cons.1 hline
          exact ⟨n, c, hc, hn, by simp, ih.2 ⟨rest, hmatch, hwalk, hrest⟩⟩

end Walk

end ArborDb
