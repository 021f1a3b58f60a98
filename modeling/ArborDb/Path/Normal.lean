import ArborDb.Path.Text

/-!
# Path text is a normal form

An access path is read like a value path, without the indices. What the reader gives, and what joins
of such paths give, is read back from its own text, so that a path and its text determine each other.
-/

namespace ArborDb

/-! ## Access paths -/

namespace APath

/-- Reads the tokens of a text, after the names read before. -/
def parseTokens (full : Str) : List (List Char) → List Str → AdbResult (List Str)
  | [], names => .ok names
  | token :: tokens, names =>
    if token = [] then .error (.invalidPath ("empty segment in '" ++ full.text ++ "'"))
    else if token = ['.'] then parseTokens full tokens names
    else if token = ['.', '.'] then
      if names = [] then .error (.invalidPath ("'" ++ full.text ++ "' rises above the root"))
      else parseTokens full tokens names.dropLast
    else do
      VPath.validateName ⟨String.ofList token⟩ full
      parseTokens full tokens (names ++ [⟨String.ofList token⟩])

/-- Parses a path such as `users/alice`. -/
def parse (s : Str) : AdbResult APath :=
  if s.text.isEmpty then .ok root
  else do
    let names ← parseTokens s (s.text.toList.splitOn '/') []
    return ⟨names⟩

/-- A path followed by the names of another. -/
def join (p tail : APath) : APath := ⟨p.names ++ tail.names⟩

/-- Names that their texts can stand for, and which name no path. -/
def Names (names : List Str) : Prop := ∀ name ∈ names, VPath.Plain name ∧ ¬ VPath.Reserved name

theorem Names.append {l m : List Str} (hl : Names l) (hm : Names m) : Names (l ++ m) := by
  intro name h
  rcases List.mem_append.1 h with h | h
  · exact hl name h
  · exact hm name h

theorem names_parseTokens {full : Str} {tokens : List (List Char)} {before names : List Str}
    (hbefore : Names before) (h : parseTokens full tokens before = .ok names) : Names names := by
  induction tokens generalizing before with
  | nil =>
    cases h
    exact hbefore
  | cons token tokens ih =>
    rw [parseTokens] at h
    split at h
    · cases h
    · rename_i htoken
      split at h
      · exact ih hbefore h
      · split at h
        · split at h
          · cases h
          · apply ih _ h
            intro name hname
            exact hbefore name (List.dropLast_subset _ hname)
        · obtain ⟨_, hvalid, h⟩ := Except.bind_eq_ok.1 h
          obtain ⟨hchars, hreserved⟩ := VPath.validateName_eq_ok.1 hvalid
          apply ih _ h
          apply hbefore.append
          intro name hname
          cases List.mem_singleton.1 hname
          have hne : String.ofList token ≠ "" := by rwa [ne_eq, String.ofList_eq_empty_iff]
          exact ⟨⟨hne, hchars⟩, hreserved⟩

/-- The reader gives names that the writer keeps. -/
theorem names_parse {s : Str} {p : APath} (h : parse s = .ok p) : Names p.names := by
  unfold parse at h
  split at h
  · cases h
    intro name hname
    cases hname
  · obtain ⟨names, hnames, h⟩ := Except.bind_eq_ok.1 h
    cases h
    have hnil : Names [] := by
      intro name hname
      cases hname
    exact names_parseTokens hnil hnames

/-- Reading back the texts of some names. -/
theorem parseTokens_texts {names : List Str} (hnames : Names names) (full : Str) (before : List Str) :
    parseTokens full (names.map fun name => name.text.toList) before = .ok (before ++ names) := by
  induction names generalizing before with
  | nil =>
    rw [List.append_nil]
    rfl
  | cons name names ih =>
    obtain ⟨hplain, hreserved⟩ := hnames name List.mem_cons_self
    have hrest : Names names := fun other hother => hnames other (List.mem_cons_of_mem _ hother)
    have hne : name.text.toList ≠ [] := fun heq => hplain.nonempty (String.toList_eq_nil_iff.1 heq)
    have hother : ∀ other : Str, name.text.toList = other.text.toList → name = other := by
      intro other heq
      obtain ⟨text⟩ := name
      obtain ⟨other⟩ := other
      exact congrArg Str.mk (String.toList_injective heq)
    have hdot : name.text.toList ≠ ['.'] := fun heq => hreserved (.inl (hother ⟨"."⟩ heq))
    have hdots : name.text.toList ≠ ['.', '.'] := fun heq => hreserved (.inr (hother ⟨".."⟩ heq))
    have hself : (⟨String.ofList name.text.toList⟩ : Str) = name := by rw [String.ofList_toList]
    have hvalid : VPath.validateName name full = .ok () :=
      VPath.validateName_eq_ok.2 ⟨hplain.chars, hreserved⟩
    rw [List.map_cons, parseTokens, if_neg hne, if_neg hdot, if_neg hdots, hself, hvalid]
    change parseTokens full _ (before ++ [name]) = _
    rw [ih hrest, List.append_assoc]
    rfl

/-- A path is read back from its text exactly if its names are such as the reader gives. -/
theorem parse_display_iff {p : APath} : parse ⟨p.display⟩ = .ok p ↔ Names p.names := by
  constructor
  · exact names_parse
  · intro hnames
    obtain ⟨names⟩ := p
    cases names with
    | nil => rfl
    | cons name names =>
      have htexts : (display ⟨name :: names⟩).toList =
          ['/'].intercalate ((name :: names).map fun name => name.text.toList) := by
        rw [display, String.toList_intercalate, List.map_map]
        rfl
      have hsplit : (display ⟨name :: names⟩).toList.splitOn '/' =
          (name :: names).map fun name => name.text.toList := by
        rw [htexts]
        apply List.splitOn_intercalate
        · intro text htext hslash
          obtain ⟨other, hother, rfl⟩ := List.mem_map.1 htext
          exact (hnames other hother).1.chars _ hslash (.inl rfl)
        · exact List.cons_ne_nil _ _
      have hne : (display ⟨name :: names⟩).isEmpty = false := by
        rw [Bool.eq_false_iff, ne_eq, String.isEmpty_iff]
        intro hempty
        have htokens := parseTokens_texts hnames ⟨""⟩ []
        rw [← hsplit, hempty] at htokens
        cases htokens
      unfold parse
      rw [if_neg (by simp [hne]), hsplit, parseTokens_texts hnames]
      rfl

/-- A path that is parsed, or joined from such ones. -/
inductive Joined : APath → Prop
  | parse {s : Str} {p : APath} : parse s = .ok p → Joined p
  | join {p tail : APath} : Joined p → Joined tail → Joined (p.join tail)

theorem Joined.names {p : APath} (h : Joined p) : Names p.names := by
  induction h with
  | parse hparse => exact names_parse hparse
  | join _ _ ihp ihtail => exact ihp.append ihtail

end APath

/-! ## Value paths -/

namespace VPath

/-- A path followed by the segments of another. -/
def join (p tail : VPath) : VPath := ⟨p.segments ++ tail.segments⟩

/-- A path that is parsed, or joined from such ones. -/
inductive Joined : VPath → Prop
  | parse {s : Str} {p : VPath} : parse s = .ok p → Joined p
  | join {p tail : VPath} : Joined p → Joined tail → Joined (p.join tail)

theorem Joined.names {p : VPath} (h : Joined p) : Names p.segments := by
  induction h with
  | parse hparse => exact names_parse hparse
  | join _ _ ihp ihtail => exact ihp.append ihtail

end VPath

/-! ## The normal form -/

/-- A name that is neither empty nor a dot segment, and holds no character of the syntax. -/
structure OrdinaryName (name : Str) : Prop where
  empty : name ≠ ⟨""⟩
  dot : name ≠ ⟨"."⟩
  dots : name ≠ ⟨".."⟩
  slash : '/' ∉ name.text.toList
  opening : '[' ∉ name.text.toList
  closing : ']' ∉ name.text.toList

theorem VPath.Plain.ordinaryName {name : Str} (h : Plain name) (hr : ¬ Reserved name) : OrdinaryName name where
  empty := by
    rintro rfl
    exact h.nonempty rfl
  dot heq := hr (.inl heq)
  dots heq := hr (.inr heq)
  slash hmem := h.chars _ hmem (.inl rfl)
  opening hmem := h.chars _ hmem (.inr (.inl rfl))
  closing hmem := h.chars _ hmem (.inr (.inr rfl))

/-- **Path text is a faithful normal form.** What the reader gives, and what joins of it give, is
read back from its text; its names are ordinary; and two texts stand for one path exactly if the
texts of what was read are equal. -/
theorem path_text_normal :
    ((∀ p, VPath.Joined p → VPath.parse ⟨p.display⟩ = .ok p) ∧
      (∀ s p, VPath.parse s = .ok p → ∀ name, .name name ∈ p.segments → OrdinaryName name) ∧
      ∀ s t p q, VPath.parse s = .ok p → VPath.parse t = .ok q → (p = q ↔ p.display = q.display)) ∧
    (∀ p, APath.Joined p → APath.parse ⟨p.display⟩ = .ok p) ∧
      (∀ s p, APath.parse s = .ok p → ∀ name ∈ p.names, OrdinaryName name) ∧
      ∀ s t p q, APath.parse s = .ok p → APath.parse t = .ok q → (p = q ↔ p.display = q.display) := by
  have hvalue : ∀ p, VPath.Joined p → VPath.parse ⟨p.display⟩ = .ok p :=
    fun p h => VPath.parse_display_iff.2 h.names
  have haccess : ∀ p, APath.Joined p → APath.parse ⟨p.display⟩ = .ok p :=
    fun p h => APath.parse_display_iff.2 h.names
  refine ⟨⟨hvalue, ?_, ?_⟩, haccess, ?_, ?_⟩
  · intro s p h name hname
    obtain ⟨hplain, hr⟩ := VPath.names_parse h name hname
    exact hplain.ordinaryName hr
  · intro s t p q hp hq
    constructor
    · intro heq
      rw [heq]
    · intro heq
      have hback := hvalue q (.parse hq)
      rw [← heq, hvalue p (.parse hp)] at hback
      exact Except.ok.inj hback
  · intro s p h name hname
    obtain ⟨hplain, hr⟩ := APath.names_parse h name hname
    exact hplain.ordinaryName hr
  · intro s t p q hp hq
    constructor
    · intro heq
      rw [heq]
    · intro heq
      have hback := haccess q (.parse hq)
      rw [← heq, haccess p (.parse hp)] at hback
      exact Except.ok.inj hback

/-- An index that a join attaches to the name before it, and a parent that keeps it. -/
theorem path_text_normal_index :
    VPath.parse ⟨(VPath.join ⟨[.name ⟨"a"⟩]⟩ ⟨[.index 5, .name ⟨"x"⟩]⟩).display⟩ =
      .ok ⟨[.name ⟨"a"⟩, .index 5, .name ⟨"x"⟩]⟩ ∧
    APath.parse ⟨(APath.join ⟨[⟨"a"⟩]⟩ ⟨[⟨"b"⟩]⟩).display⟩ = .ok ⟨[⟨"a"⟩, ⟨"b"⟩]⟩ := by
  have ha : VPath.parse ⟨"a"⟩ = .ok ⟨[.name ⟨"a"⟩]⟩ := by decide +kernel
  have hx : VPath.parse ⟨(⟨[.index 5, .name ⟨"x"⟩]⟩ : VPath).display⟩ = .ok ⟨[.index 5, .name ⟨"x"⟩]⟩ := by
    apply VPath.parse_display_iff.2
    intro name hname
    obtain rfl : name = ⟨"x"⟩ := by simpa using hname
    exact ⟨⟨by decide, by simp [VPath.IsSyntax]⟩, by decide⟩
  have hpath : APath.parse ⟨"a"⟩ = .ok ⟨[⟨"a"⟩]⟩ := by decide +kernel
  have hchild : APath.parse ⟨"c/../b"⟩ = .ok ⟨[⟨"b"⟩]⟩ := by decide +kernel
  exact ⟨path_text_normal.1.1 _ (.join (.parse ha) (.parse hx)),
    path_text_normal.2.1 _ (.join (.parse hpath) (.parse hchild))⟩

end ArborDb
