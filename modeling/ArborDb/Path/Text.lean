import ArborDb.Error
import ArborDb.Lib.Except
import Mathlib.Data.List.TakeWhile

/-!
# Paths as text

A `VPath` is written with a slash before every name but the first and its indices in brackets, and
read back token by token. The reader gives names that are free of the characters of the syntax and
do not stand for a path or its parent, and the writer takes any name. So a path is read back from
its text exactly if its names are such (`parse_display_iff`).
-/

namespace ArborDb

/-! ## The reader -/

/-- A number as the standard library reads a `u64`: digits after an optional sign. -/
def parseU64 (digits : List Char) : Option UInt64 :=
  let body := match digits with
    | '+' :: rest => rest
    | _ => digits
  if body ≠ [] ∧ body.all Char.isDigit ∧ Nat.ofDigitChars 10 body 0 < 2 ^ 64 then
    some (.ofNat (Nat.ofDigitChars 10 body 0))
  else none

namespace VPath

/-- A character of the path syntax. -/
def IsSyntax (c : Char) : Prop := c = '/' ∨ c = '[' ∨ c = ']'

instance : DecidablePred IsSyntax := fun _ => inferInstanceAs (Decidable (_ ∨ _))

/-- Refuses a name that holds a character of the syntax or stands for a path or its parent. -/
def validateName (name full : Str) : AdbResult Unit :=
  if name.text.toList.any fun c => decide (IsSyntax c) then
    .error (.invalidPath ("reserved character in segment '" ++ name.text ++ "' of '" ++ full.text ++ "'"))
  else if Reserved name then
    .error (.invalidPath ("reserved segment '" ++ name.text ++ "' in '" ++ full.text ++ "'"))
  else .ok ()

/-- The indices in brackets at the end of a token. -/
def parseIndexes (full : Str) : List Char → AdbResult (List Segment)
  | [] => .ok []
  | c :: rest =>
    if c ≠ '[' then .error (.invalidPath ("expected '[' in segment of '" ++ full.text ++ "'"))
    else if ']' ∉ rest then .error (.invalidPath ("unclosed '[' in '" ++ full.text ++ "'"))
    else match parseU64 (rest.takeWhile (· ≠ ']')) with
      | none =>
        .error (.invalidPath ("invalid index '" ++ String.ofList (rest.takeWhile (· ≠ ']')) ++ "' in '" ++
          full.text ++ "'"))
      | some index => do
        let more ← parseIndexes full ((rest.dropWhile (· ≠ ']')).drop 1)
        return .index index :: more
termination_by text => text.length
decreasing_by
  have := (List.dropWhile_suffix (p := (· ≠ ']')) (l := rest)).length_le
  simp only [List.length_drop, List.length_cons, gt_iff_lt]
  omega

/-- What stands before the indices of a token. -/
def tokenName (token : List Char) : Str := ⟨String.ofList (token.takeWhile (· ≠ '['))⟩

/-- The segments a token spells: a name, the indices of an element, or both. -/
def parseToken (token : List Char) (full : Str) : AdbResult (List Segment) := do
  if '[' ∉ token then
    validateName (tokenName token) full
    return [.name (tokenName token)]
  else if (tokenName token).text.isEmpty then parseIndexes full (token.dropWhile (· ≠ '['))
  else
    validateName (tokenName token) full
    let indexes ← parseIndexes full (token.dropWhile (· ≠ '['))
    return .name (tokenName token) :: indexes

/-- Reads the tokens of a text, after the segments read before. -/
def parseTokens (full : Str) : List (List Char) → List Segment → AdbResult (List Segment)
  | [], segments => .ok segments
  | token :: tokens, segments =>
    if token = [] then .error (.invalidPath ("empty segment in '" ++ full.text ++ "'"))
    else if token = ['.'] then parseTokens full tokens segments
    else if token = ['.', '.'] then
      if segments = [] then .error (.invalidPath ("'" ++ full.text ++ "' rises above the root"))
      else parseTokens full tokens segments.dropLast
    else do
      let more ← parseToken token full
      parseTokens full tokens (segments ++ more)

/-- Parses a path such as `a/b[12]/x`. -/
def parse (s : Str) : AdbResult VPath :=
  if s.text.isEmpty then .ok root
  else do
    let segments ← parseTokens s (s.text.toList.splitOn '/') []
    return ⟨segments⟩

/-! ## The names it gives -/

/-- A name that its text can stand for. -/
structure Plain (name : Str) : Prop where
  nonempty : name.text ≠ ""
  chars : ∀ c ∈ name.text.toList, ¬ IsSyntax c

/-- Segments whose names their texts can stand for, and which name no path. -/
def Names (segments : List Segment) : Prop := ∀ name, .name name ∈ segments → Plain name ∧ ¬ Reserved name

theorem Names.nil : Names [] := by
  intro name h
  cases h

theorem Names.append {l m : List Segment} (hl : Names l) (hm : Names m) : Names (l ++ m) := by
  intro name h
  rcases List.mem_append.1 h with h | h
  · exact hl name h
  · exact hm name h

theorem Names.cons_name {name : Str} {l : List Segment} (hname : Plain name) (hr : ¬ Reserved name) (hl : Names l) :
    Names (.name name :: l) := by
  intro other h
  rcases List.mem_cons.1 h with h | h
  · cases h
    exact ⟨hname, hr⟩
  · exact hl other h

theorem validateName_eq_ok {name full : Str} :
    validateName name full = .ok () ↔ (∀ c ∈ name.text.toList, ¬ IsSyntax c) ∧ ¬ Reserved name := by
  unfold validateName
  split
  · rename_i h
    obtain ⟨c, hc, hsyntax⟩ := List.any_eq_true.1 h
    exact ⟨nofun, fun h => absurd (of_decide_eq_true hsyntax) (h.1 c hc)⟩
  · rename_i h
    have hchars : ∀ c ∈ name.text.toList, ¬ IsSyntax c :=
      fun c hc hsyntax => h (List.any_eq_true.2 ⟨c, hc, decide_eq_true hsyntax⟩)
    split
    · rename_i hreserved
      exact ⟨nofun, fun h => absurd hreserved h.2⟩
    · rename_i hreserved
      exact ⟨fun _ => ⟨hchars, hreserved⟩, fun _ => rfl⟩

theorem names_parseIndexes {full : Str} {text : List Char} {segments : List Segment}
    (h : parseIndexes full text = .ok segments) : Names segments := by
  induction text using parseIndexes.induct generalizing segments with
  | case1 =>
    rw [parseIndexes] at h
    cases h
    exact Names.nil
  | case2 c rest hc =>
    rw [parseIndexes, if_pos hc] at h
    cases h
  | case3 c rest hc hrest =>
    rw [parseIndexes, if_neg hc, if_pos hrest] at h
    cases h
  | case4 c rest hc hrest hdigits =>
    rw [parseIndexes, if_neg hc, if_neg hrest, hdigits] at h
    cases h
  | case5 c rest hc hrest index hdigits ih =>
    rw [parseIndexes, if_neg hc, if_neg hrest, hdigits] at h
    obtain ⟨more, hmore, h⟩ := Except.bind_eq_ok.1 h
    cases h
    intro name hname
    rcases List.mem_cons.1 hname with hname | hname
    · cases hname
    · exact ih hmore name hname

theorem names_parseToken {full : Str} {token : List Char} {segments : List Segment} (htoken : token ≠ [])
    (h : parseToken token full = .ok segments) : Names segments := by
  unfold parseToken at h
  split at h
  · rename_i hbracket
    obtain ⟨_, hvalid, h⟩ := Except.bind_eq_ok.1 h
    cases h
    obtain ⟨hchars, hreserved⟩ := validateName_eq_ok.1 hvalid
    have hall : token.takeWhile (· ≠ '[') = token := by
      rw [List.takeWhile_eq_self_iff]
      intro c hc
      exact decide_eq_true fun heq => hbracket (heq ▸ hc)
    refine Names.cons_name ⟨?_, hchars⟩ hreserved Names.nil
    rwa [tokenName, hall, ne_eq, String.ofList_eq_empty_iff]
  · split at h
    · exact names_parseIndexes h
    · rename_i hname
      obtain ⟨_, hvalid, h⟩ := Except.bind_eq_ok.1 h
      obtain ⟨indexes, hindexes, h⟩ := Except.bind_eq_ok.1 h
      cases h
      obtain ⟨hchars, hreserved⟩ := validateName_eq_ok.1 hvalid
      have hplain : Plain (tokenName token) := ⟨fun hempty => hname (by rw [hempty]; rfl), hchars⟩
      exact Names.cons_name hplain hreserved (names_parseIndexes hindexes)

theorem names_parseTokens {full : Str} {tokens : List (List Char)} {before segments : List Segment}
    (hbefore : Names before) (h : parseTokens full tokens before = .ok segments) : Names segments := by
  induction tokens generalizing before with
  | nil =>
    cases h
    exact hbefore
  | cons token tokens ih =>
    rw [parseTokens] at h
    split at h
    · cases h
    · rename_i htoken
      split at h
      · exact ih hbefore h
      · split at h
        · split at h
          · cases h
          · refine ih ?_ h
            intro name hname
            exact hbefore name (List.dropLast_subset _ hname)
        · obtain ⟨more, hmore, h⟩ := Except.bind_eq_ok.1 h
          exact ih (hbefore.append (names_parseToken htoken hmore)) h

/-- The reader gives names that the writer keeps. -/
theorem names_parse {s : Str} {p : VPath} (h : parse s = .ok p) : Names p.segments := by
  unfold parse at h
  split at h
  · cases h
    exact Names.nil
  · obtain ⟨segments, hsegments, h⟩ := Except.bind_eq_ok.1 h
    cases h
    exact names_parseTokens Names.nil hsegments

/-! ## Reading back what is written -/

/-- The text of an index. -/
def indexChars (i : UInt64) : List Char := '[' :: (Nat.toDigits 10 i.toNat ++ [']'])

/-- The text of the indices that end a token. -/
def bracketed (is : List UInt64) : List Char := is.flatMap indexChars

theorem toList_displayFrom_index (first : Bool) (i : UInt64) (segments : List Segment) :
    (displayFrom first (.index i :: segments)).toList = indexChars i ++ (displayFrom false segments).toList := by
  simp [displayFrom, indexChars]

theorem toList_displayFrom_name (name : Str) (segments : List Segment) :
    (displayFrom false (.name name :: segments)).toList =
      '/' :: (name.text.toList ++ (displayFrom false segments).toList) := by
  simp [displayFrom]

theorem isDigit_of_mem_index {i : UInt64} {c : Char} (h : c ∈ Nat.toDigits 10 i.toNat) : c.isDigit = true :=
  Nat.isDigit_of_mem_toDigits (by decide) (by decide) h

theorem parseU64_toDigits (i : UInt64) : parseU64 (Nat.toDigits 10 i.toNat) = some i := by
  have hvalue : Nat.ofDigitChars 10 (Nat.toDigits 10 i.toNat) 0 = i.toNat := Nat.ofDigitChars_ten_toDigits
  have hdigits : (Nat.toDigits 10 i.toNat).all Char.isDigit = true :=
    List.all_eq_true.2 fun c hc => isDigit_of_mem_index hc
  have hplus : '+' ∉ Nat.toDigits 10 i.toNat := fun h => absurd (isDigit_of_mem_index h) (by decide)
  have hbody : (match Nat.toDigits 10 i.toNat with
      | '+' :: rest => rest
      | _ => Nat.toDigits 10 i.toNat) = Nat.toDigits 10 i.toNat := by
    split
    · rename_i rest heq
      exact absurd (heq ▸ List.mem_cons_self) hplus
    · rfl
  unfold parseU64
  rw [hbody, if_pos ⟨Nat.toDigits_ne_nil, hdigits, by rw [hvalue]; exact i.toNat_lt⟩, hvalue, UInt64.ofNat_toNat]

theorem parseIndexes_indexChars (full : Str) (i : UInt64) (rest : List Char) :
    parseIndexes full (indexChars i ++ rest) = (parseIndexes full rest).map (.index i :: ·) := by
  have hdigits : ∀ c ∈ Nat.toDigits 10 i.toNat, decide (c ≠ ']') = true := by
    intro c hc
    refine decide_eq_true ?_
    rintro rfl
    exact absurd (isDigit_of_mem_index hc) (by decide)
  have htake : (Nat.toDigits 10 i.toNat ++ ']' :: rest).takeWhile (· ≠ ']') = Nat.toDigits 10 i.toNat := by
    rw [List.takeWhile_append_of_pos hdigits, List.takeWhile_cons_of_neg (by decide), List.append_nil]
  have hdrop : (Nat.toDigits 10 i.toNat ++ ']' :: rest).dropWhile (· ≠ ']') = ']' :: rest := by
    rw [List.dropWhile_append_of_pos hdigits, List.dropWhile_cons_of_neg (by decide)]
  have htext : indexChars i ++ rest = '[' :: (Nat.toDigits 10 i.toNat ++ ']' :: rest) := by
    simp [indexChars]
  rw [htext, parseIndexes, if_neg (by decide), if_neg (by simp), htake, parseU64_toDigits, hdrop]
  rfl

theorem parseIndexes_bracketed (full : Str) (is : List UInt64) :
    parseIndexes full (bracketed is) = .ok (is.map .index) := by
  induction is with
  | nil => rw [bracketed, List.flatMap_nil, parseIndexes, List.map_nil]
  | cons i is ih =>
    rw [bracketed, List.flatMap_cons, parseIndexes_indexChars, ← bracketed, ih]
    rfl

/-- A token the writer gives: a name before some indices, where the name is missing only at the start. -/
structure IsToken (name : Str) (is : List UInt64) : Prop where
  chars : ∀ c ∈ name.text.toList, ¬ IsSyntax c
  unreserved : ¬ Reserved name
  nonempty : name.text = "" → is ≠ []

def tokenChars (name : Str) (is : List UInt64) : List Char := name.text.toList ++ bracketed is

/-- The segments a token stands for. -/
def tokenSegments (name : Str) (is : List UInt64) : List Segment :=
  (if name.text.isEmpty then [] else [.name name]) ++ is.map .index

theorem Plain.isToken {name : Str} (h : Plain name) (hr : ¬ Reserved name) : IsToken name [] where
  chars := h.chars
  unreserved := hr
  nonempty hempty := absurd hempty h.nonempty

theorem slash_notMem_tokenChars {name : Str} {is : List UInt64} (h : IsToken name is) :
    '/' ∉ tokenChars name is := by
  intro hmem
  rcases List.mem_append.1 hmem with hmem | hmem
  · exact h.chars _ hmem (.inl rfl)
  · obtain ⟨i, _, hmem⟩ := List.mem_flatMap.1 hmem
    rcases List.mem_cons.1 hmem with hmem | hmem
    · exact absurd hmem (by decide)
    · rcases List.mem_append.1 hmem with hmem | hmem
      · exact absurd (isDigit_of_mem_index hmem) (by decide)
      · exact absurd (List.mem_singleton.1 hmem) (by decide)

theorem parseToken_tokenChars {name : Str} {is : List UInt64} (h : IsToken name is) (full : Str) :
    parseToken (tokenChars name is) full = .ok (tokenSegments name is) := by
  have hname : ∀ c ∈ name.text.toList, decide (c ≠ '[') = true := by
    intro c hc
    refine decide_eq_true ?_
    rintro rfl
    exact h.chars _ hc (.inr (.inl rfl))
  have hvalid : validateName name full = .ok () := validateName_eq_ok.2 ⟨h.chars, h.unreserved⟩
  have htake : (bracketed is).takeWhile (· ≠ '[') = [] := by
    cases is <;> rfl
  have hdrop : (bracketed is).dropWhile (· ≠ '[') = bracketed is := by
    cases is <;> rfl
  have htoken : tokenName (tokenChars name is) = name := by
    rw [tokenName, tokenChars, List.takeWhile_append_of_pos hname, htake, List.append_nil, String.ofList_toList]
  have hrest : (tokenChars name is).dropWhile (· ≠ '[') = bracketed is := by
    rw [tokenChars, List.dropWhile_append_of_pos hname, hdrop]
  unfold parseToken tokenSegments
  rw [htoken, hrest, hvalid, parseIndexes_bracketed]
  cases is with
  | nil =>
    have hbracket : '[' ∉ tokenChars name [] := by
      intro hmem
      rcases List.mem_append.1 hmem with hmem | hmem
      · exact absurd (hname _ hmem) (by decide)
      · cases hmem
    have hempty : ¬ name.text.isEmpty = true := fun hempty => h.nonempty (String.isEmpty_iff.1 hempty) rfl
    rw [if_pos hbracket, if_neg hempty]
    rfl
  | cons i is =>
    have hbracket : '[' ∈ tokenChars name (i :: is) := List.mem_append_right _ List.mem_cons_self
    rw [if_neg (not_not_intro hbracket)]
    split <;> rfl

/-- One token off the front. -/
theorem parseTokens_cons {name : Str} {is : List UInt64} (h : IsToken name is) (full : Str)
    (tokens : List (List Char)) (before : List Segment) :
    parseTokens full (tokenChars name is :: tokens) before =
      parseTokens full tokens (before ++ tokenSegments name is) := by
  have hbracket : is ≠ [] → '[' ∈ tokenChars name is := by
    intro his
    obtain ⟨i, is, rfl⟩ := List.exists_cons_of_ne_nil his
    exact List.mem_append_right _ List.mem_cons_self
  have hplain : ∀ other : Str, '[' ∉ other.text.toList → tokenChars name is = other.text.toList → name = other := by
    intro other hother heq
    have his : is = [] := by
      by_contra his
      exact hother (heq ▸ hbracket his)
    subst his
    rw [tokenChars, bracketed, List.flatMap_nil, List.append_nil] at heq
    obtain ⟨text⟩ := name
    obtain ⟨other⟩ := other
    exact congrArg Str.mk (String.toList_injective heq)
  have hne : tokenChars name is ≠ [] := by
    intro heq
    obtain ⟨hname, his⟩ := List.append_eq_nil_iff.1 heq
    have hnone : is = [] := by
      by_contra hsome
      have := hbracket hsome
      rw [heq] at this
      cases this
    exact h.nonempty (String.toList_eq_nil_iff.1 hname) hnone
  have hdot : tokenChars name is ≠ ['.'] := fun heq => h.unreserved (.inl (hplain ⟨"."⟩ (by decide) heq))
  have hdots : tokenChars name is ≠ ['.', '.'] := fun heq => h.unreserved (.inr (hplain ⟨".."⟩ (by decide) heq))
  rw [parseTokens, if_neg hne, if_neg hdot, if_neg hdots, parseToken_tokenChars h]
  rfl

/-- Reading back the text of some segments, with a token begun. -/
theorem parseTokens_displayFrom {segments : List Segment} (hnames : Names segments) {name : Str}
    {is : List UInt64} (h : IsToken name is) (full : Str) (before : List Segment) :
    parseTokens full ((tokenChars name is ++ (displayFrom false segments).toList).splitOn '/') before =
      .ok (before ++ tokenSegments name is ++ segments) := by
  induction segments generalizing name is before with
  | nil =>
    have hnil : (displayFrom false []).toList = [] := rfl
    rw [hnil, List.append_nil, List.splitOn_eq_singleton (slash_notMem_tokenChars h), parseTokens_cons h,
      List.append_nil]
    rfl
  | cons segment segments ih =>
    have hrest : Names segments := fun other hother => hnames other (List.mem_cons_of_mem _ hother)
    cases segment with
    | name next =>
      obtain ⟨hplain, hreserved⟩ := hnames next List.mem_cons_self
      have htoken := hplain.isToken hreserved
      have hchars : next.text.toList = tokenChars next [] := by
        rw [tokenChars, bracketed, List.flatMap_nil, List.append_nil]
      have hsegments : tokenSegments next [] = [.name next] := by
        rw [tokenSegments, if_neg fun hempty => hplain.nonempty (String.isEmpty_iff.1 hempty)]
        rfl
      rw [toList_displayFrom_name, List.splitOn_append_cons_self_of_not_mem (slash_notMem_tokenChars h),
        parseTokens_cons h, hchars, ih hrest htoken, hsegments, List.append_assoc, List.append_assoc]
      rw [List.append_assoc]
      rfl
    | index i =>
      have htoken : IsToken name (is ++ [i]) := ⟨h.chars, h.unreserved, fun _ => by simp⟩
      have hchars : tokenChars name is ++ indexChars i = tokenChars name (is ++ [i]) := by
        simp [tokenChars, bracketed]
      have hsegments : tokenSegments name (is ++ [i]) = tokenSegments name is ++ [.index i] := by
        simp [tokenSegments]
      rw [toList_displayFrom_index, ← List.append_assoc, hchars, ih hrest htoken, hsegments]
      simp

/-- A path is read back from its text exactly if its names are such as the reader gives. -/
theorem parse_display_iff {p : VPath} : parse ⟨p.display⟩ = .ok p ↔ Names p.segments := by
  constructor
  · exact names_parse
  · intro hnames
    obtain ⟨segments⟩ := p
    cases segments with
    | nil => rfl
    | cons segment segments =>
      have hrest : Names segments := fun other hother => hnames other (List.mem_cons_of_mem _ hother)
      obtain ⟨name, is, htoken, hchars, hsegments⟩ : ∃ name is, IsToken name is ∧
          (display ⟨segment :: segments⟩).toList = tokenChars name is ++ (displayFrom false segments).toList ∧
          tokenSegments name is = [segment] := by
        cases segment with
        | name name =>
          obtain ⟨hplain, hreserved⟩ := hnames name List.mem_cons_self
          refine ⟨name, [], hplain.isToken hreserved, by simp [display, displayFrom, tokenChars, bracketed], ?_⟩
          rw [tokenSegments, if_neg fun hempty => hplain.nonempty (String.isEmpty_iff.1 hempty)]
          rfl
        | index i =>
          refine ⟨⟨""⟩, [i], ⟨nofun, by decide, fun _ => by simp⟩, ?_, rfl⟩
          rw [display, toList_displayFrom_index]
          simp [tokenChars, bracketed]
      have hne : (display ⟨segment :: segments⟩).isEmpty = false := by
        rw [Bool.eq_false_iff, ne_eq, String.isEmpty_iff, ← String.toList_eq_nil_iff, hchars]
        intro heq
        have hnil := (List.append_eq_nil_iff.1 heq).1
        have htokens := parseTokens_cons htoken ⟨""⟩ [] []
        rw [hnil] at htokens
        cases htokens
      unfold parse
      rw [if_neg (by simp [hne]), hchars, parseTokens_displayFrom hrest htoken, hsegments]
      rfl

/-! ## The paths the library builds -/

/-- A path that is parsed, or built name by name and index by index from such a one. -/
inductive Built : VPath → Prop
  | parse {s : Str} {p : VPath} : parse s = .ok p → Built p
  | childName {p : VPath} (name : Str) : Built p → Built (p.childName name)
  | childIndex {p : VPath} (index : UInt64) : Built p → Built (p.childIndex index)

theorem Built.root : Built root := .parse (s := ⟨""⟩) rfl

theorem Built.unreserved {p : VPath} (h : Built p) {name : Str} (hname : .name name ∈ p.segments) :
    ¬ Reserved name := by
  induction h with
  | parse hparse => exact (names_parse hparse name hname).2
  | @childName p next _ ih =>
    unfold VPath.childName pushName at hname
    split at hname
    · exact ih hname
    · split at hname
      · exact ih (List.dropLast_subset _ hname)
      · rename_i hdot hdots
        rcases List.mem_append.1 hname with hname | hname
        · exact ih hname
        · cases List.mem_singleton.1 hname
          exact not_or_intro hdot hdots
  | childIndex index _ ih =>
    rcases List.mem_append.1 hname with hname | hname
    · exact ih hname
    · cases List.mem_singleton.1 hname

/-- The names of a path are names that their texts can stand for. -/
def Printable (p : VPath) : Prop := ∀ name, .name name ∈ p.segments → Plain name

theorem Built.names_iff {p : VPath} (h : Built p) : Names p.segments ↔ p.Printable := by
  constructor
  · intro hnames name hname
    exact (hnames name hname).1
  · intro hplain name hname
    exact ⟨hplain name hname, h.unreserved hname⟩

end VPath

end ArborDb
