import ArborDb.Data.Flatten

/-!
# Flattened fields that disturb their siblings

Where every part of a value is needed, a load that gives the value back has found the first name of each
part, so that no flattened enum cleared the vnode after something was stored in it, and each external tag
was the first name of the vnode: the value was not disturbed (`flattened_loads`).
-/

namespace ArborDb

section Flattened

variable [Externals]

/-! ## Names to start from -/

section Missed

variable {impl : DataType → Impl} {tree : DataType → Data → Value}

mutual

/-- The names that loading a member starts from. -/
def Member.leads : Member → Data → List Str
  | .plain f, _ => [f.name]
  | .struct members, .struct ds => memberLeads members ds
  | .enum repr _ variants, .variant index _ =>
    match variants[index]? with
    | some v => [repr.lead v]
    | none => []
  | _, _ => []

def memberLeads : List Member → List Data → List Str
  | m :: ms, d :: ds => m.leads d ++ memberLeads ms ds
  | _, _ => []

end

omit [Externals] in
theorem EnumRepr.lead_mem_keys (repr : EnumRepr) (v : Variant) : repr.lead v ∈ repr.keys v := by
  cases repr with
  | internal tag => exact List.mem_cons_self
  | external => exact List.mem_cons_self
  | adjacent tag content => cases hfields : v.fields <;> simp [EnumRepr.keys, EnumRepr.lead, hfields]

mutual

theorem Member.leads_subset : ∀ (m : Member) (d : Data), ∀ l ∈ m.leads d, l ∈ m.keys d
  | .plain f, d, l, hl => hl
  | .struct ms, d, l, hl => by
    cases d with
    | struct ds => exact leads_subset_members ms ds l hl
    | _ => cases hl
  | .enum repr expecting variants, d, l, hl => by
    cases d with
    | variant index ds =>
      rw [Member.leads] at hl
      rw [Member.keys]
      cases hv : variants[index]? with
      | none =>
        rw [hv] at hl
        cases hl
      | some v =>
        rw [hv] at hl
        cases List.mem_singleton.1 hl
        exact repr.lead_mem_keys v
    | _ => cases hl

theorem leads_subset_members : ∀ (ms : List Member) (ds : List Data), ∀ l ∈ memberLeads ms ds, l ∈ memberKeys ms ds
  | [], ds, l, hl => by cases ds <;> cases hl
  | m :: ms, [], l, hl => by cases hl
  | m :: ms, d :: ds, l, hl => by
    rcases List.mem_append.1 hl with hl | hl
    · exact List.mem_append_left _ (Member.leads_subset m d l hl)
    · exact List.mem_append_right _ (leads_subset_members ms ds l hl)

end

mutual

/-- A member that is stored under some name has one to start from. -/
theorem Member.leads_ne_nil : ∀ (m : Member) (d : Data), m.keys d ≠ [] → m.leads d ≠ []
  | .plain f, d, _ => List.cons_ne_nil _ _
  | .struct ms, d, h => by
    cases d with
    | struct ds => exact memberLeads_ne_nil ms ds h
    | _ => exact absurd rfl h
  | .enum repr expecting variants, d, h => by
    cases d with
    | variant index ds =>
      rw [Member.keys] at h
      rw [Member.leads]
      cases hv : variants[index]? with
      | none =>
        rw [hv] at h
        exact absurd rfl h
      | some v => exact List.cons_ne_nil _ _
    | _ => exact absurd rfl h

theorem memberLeads_ne_nil : ∀ (ms : List Member) (ds : List Data), memberKeys ms ds ≠ [] → memberLeads ms ds ≠ []
  | [], ds, h => by cases ds <;> exact absurd rfl h
  | m :: ms, [], h => absurd rfl h
  | m :: ms, d :: ds, h => by
    intro hnil
    obtain ⟨hm, hms⟩ := List.append_eq_nil_iff.1 hnil
    apply h
    rw [memberKeys, List.append_eq_nil_iff]
    constructor
    · by_contra hne
      exact Member.leads_ne_nil m d hne hm
    · by_contra hne
      exact memberLeads_ne_nil ms ds hne hms

end

mutual

/-- No enum clears the vnode after a name is stored that is there in the end. -/
theorem Member.clear_of_kept {l : Str} : ∀ (m : Member) (d : Data) (acc : List (Str × Value)) (before : List Str),
    m.Holds impl tree d → l ∉ m.keys d → Assoc.find l (m.after tree d acc) ≠ none → m.Clear [] d before
  | .plain f, d, acc, before, _, _, _ => trivial
  | .struct ms, .struct ds, acc, before, h, hl, hkept => clear_members_of_kept ms ds acc before h hl hkept
  | .enum repr expecting variants, .variant index ds, acc, before, h, hl, hkept => by
    -- What an enum leaves does not depend on what was there.
    have hgone := Member.find_after (.enum repr expecting variants) (.variant index ds) [] h hl rfl
    obtain ⟨_, v, hv, _⟩ := h
    rw [Member.after, hv] at hkept hgone
    exact absurd hgone hkept

theorem clear_members_of_kept {l : Str} : ∀ (ms : List Member) (ds : List Data) (acc : List (Str × Value))
    (before : List Str), MembersHold impl tree ms ds → l ∉ memberKeys ms ds →
      Assoc.find l (membersAfter tree ms ds acc) ≠ none → MembersClear [] ms ds before
  | [], [], acc, before, _, _, _ => trivial
  | m :: ms, d :: ds, acc, before, ⟨h, hs⟩, hl, hkept => by
    rw [memberKeys, List.mem_append, not_or] at hl
    have hm : Assoc.find l (m.after tree d acc) ≠ none := fun hnone => hkept (find_membersAfter ms ds _ hs hl.2 hnone)
    exact ⟨Member.clear_of_kept m d acc before h hl.1 hm, clear_members_of_kept ms ds _ _ hs hl.2 hkept⟩

end

mutual

/-- Nothing is stored before a flattened enum if all names to start from are there in the end. -/
theorem Member.clear_of_leads : ∀ (m : Member) (d : Data) (acc : List (Str × Value)), m.Holds impl tree d →
    (m.keys d).Nodup → (∀ l ∈ m.leads d, Assoc.find l (m.after tree d acc) ≠ none) → m.Clear [] d []
  | .plain _, _, _, _, _, _ => trivial
  | .struct ms, .struct ds, acc, h, hnodup, hleads => clear_members_of_leads ms ds acc h hnodup hleads
  | .enum _ _ _, .variant _ _, _, _, _, _ => ⟨rfl, fun _ _ _ _ hname => nomatch hname⟩

theorem clear_members_of_leads : ∀ (ms : List Member) (ds : List Data) (acc : List (Str × Value)),
    MembersHold impl tree ms ds → (memberKeys ms ds).Nodup →
      (∀ l ∈ memberLeads ms ds, Assoc.find l (membersAfter tree ms ds acc) ≠ none) → MembersClear [] ms ds []
  | [], [], acc, _, _, _ => trivial
  | m :: ms, d :: ds, acc, ⟨h, hs⟩, hnodup, hleads => by
    obtain ⟨hmnodup, hmsnodup, hdisjoint⟩ := List.nodup_append.1 hnodup
    have hapart : ∀ l ∈ m.leads d, l ∉ memberKeys ms ds :=
      fun l hl hls => hdisjoint l (Member.leads_subset m d l hl) l hls rfl
    constructor
    · apply Member.clear_of_leads m d acc h hmnodup
      intro l hl hnone
      exact hleads l (List.mem_append_left _ hl) (find_membersAfter ms ds _ hs (hapart l hl) hnone)
    · rw [List.nil_append]
      rcases eq_or_ne (m.keys d) [] with hnil | hne
      · rw [hnil]
        exact clear_members_of_leads ms ds _ hs hmsnodup fun l hl => hleads l (List.mem_append_right _ hl)
      · obtain ⟨l, hl⟩ := List.exists_mem_of_ne_nil _ (Member.leads_ne_nil m d hne)
        exact clear_members_of_kept ms ds _ _ hs (hapart l hl) (hleads l (List.mem_append_left _ hl))

end

mutual

/-- The names that a member is stored under are there with its entries. -/
theorem Member.find_of_in {fields : List (Str × Value)} {k : Str} : ∀ (m : Member) (d : Data), m.Holds impl tree d →
    m.In tree fields d → k ∈ m.keys d → Assoc.find k fields ≠ none
  | .plain f, d, _, hin, hk => by
    cases List.mem_singleton.1 hk
    rw [show Assoc.find f.name fields = _ from hin]
    exact Option.some_ne_none _
  | .struct ms, .struct ds, h, hin, hk => find_of_membersIn ms ds h hin hk
  | .enum repr expecting variants, .variant index ds, ⟨_, v, hv, hds⟩, hin, hk => by
    rw [Member.keys, hv] at hk
    change k ∈ repr.keys v at hk
    rw [← keys_armEntries tree hds] at hk
    obtain ⟨x, hx, rfl⟩ := List.mem_map.1 hk
    rw [hin v hv x hx]
    exact Option.some_ne_none _

theorem find_of_membersIn {fields : List (Str × Value)} {k : Str} : ∀ (ms : List Member) (ds : List Data),
    MembersHold impl tree ms ds → MembersIn tree fields ms ds → k ∈ memberKeys ms ds → Assoc.find k fields ≠ none
  | [], [], _, _, hk => nomatch hk
  | m :: ms, d :: ds, ⟨h, hs⟩, ⟨hin, hins⟩, hk => by
    rcases List.mem_append.1 hk with hk | hk
    · exact Member.find_of_in m d h hin hk
    · exact find_of_membersIn ms ds hs hins hk

end

/-! ### What a load that succeeds has read -/

theorem loadStr_absent {r : TreeReader} {root : Value} {path : VPath} {s : Str} (hr : r.Reads root)
    (h : root.subtree path = none) : loadStr r path ≠ .ok s := by
  have hscalar : r.scalarAt path = .ok none := by
    rw [hr.scalarAt, Value.scalarAt, h]
    rfl
  rw [loadStr, hscalar]
  intro hok
  cases hok

omit [Externals] in
/-- A tag that no catch-all stands in for is read as the variant that has it. -/
theorem tag_of_matchTag {variants : List Variant} {tag : Str} {v w : Variant} {index : Nat}
    (hv : variants[index]? = some v) (hother : v.other = false) (haliases : v.aliases = [])
    (h : matchTag variants tag = some (w, index)) : tag = v.tag := by
  have hwv : ∀ {p : Variant × Nat → Bool}, variants.zipIdx.find? p = some (w, index) → w = v := by
    intro p hfind
    have hget := List.mk_mem_zipIdx_iff_getElem?.1 (List.mem_of_find?_eq_some hfind)
    exact Option.some.inj (hget.symm.trans hv)
  rcases Option.or_eq_some_iff.1 h with hown | ⟨-, hcatch⟩
  · have haccepts := List.find?_some hown
    cases hwv hown
    rw [Variant.accepts, hother, haliases] at haccepts
    have heq : (v.tag == tag) = true := by simpa only [Bool.not_false, Bool.true_and, List.contains_nil, Bool.or_false]
      using haccepts
    exact (beq_iff_eq.1 heq).symm
  · have hcatchall := List.find?_some hcatch
    cases hwv hcatch
    rw [hother] at hcatchall
    cases hcatchall

section Reading

variable {r : TreeReader} {root : Value} {path : VPath} {fields : List (Str × Value)}

/-- What an enum is read from: its tag, or the name of its variant at the head of the vnode. -/
theorem lead_of_loadEnum {repr : EnumRepr} {expecting : Option String} {variants : List Variant} {index : Nat}
    {v : Variant} {ds : List Data} (hr : r.Reads root) (hdef : (Definition.enum repr expecting variants).WF)
    (hv : variants[index]? = some v) (hother : v.other = false) (haliases : v.aliases = [])
    (hobject : root.subtree path = some (.node fields))
    (hload : loadEnum impl repr expecting variants r path = .ok (.variant index ds)) :
    Assoc.find (repr.lead v) fields ≠ none ∧
      (repr = .external → (fields.map Prod.fst).head? = some v.tag) := by
  obtain ⟨tag, htag, hload⟩ := Except.bind_eq_ok.1 hload
  have htagv : tag = v.tag := by
    cases hmatch : matchTag variants tag with
    | none =>
      rw [hmatch] at hload
      cases hload
    | some p =>
      obtain ⟨w, i⟩ := p
      rw [hmatch] at hload
      have hi : i = index := by
        change (if w.other = true then _ else _) = _ at hload
        split at hload
        · cases hload
          rfl
        · obtain ⟨payload, -, hload⟩ := Except.bind_eq_ok.1 hload
          cases hload
          rfl
      cases hi
      exact tag_of_matchTag hv hother haliases hmatch
  have hbeside : ∀ name, ¬ VPath.Reserved name → loadStr r (path.childName name) = .ok tag →
      Assoc.find name fields ≠ none := by
    intro name hreserved hstr hnone
    apply loadStr_absent hr _ hstr
    rw [Value.subtree_childName hobject hreserved]
    exact hnone
  match repr, hdef.1, hdef.2.1 v (List.mem_of_getElem? hv) with
  | .internal name, _, hwf => exact ⟨hbeside name (hwf.names.2 name List.mem_cons_self) htag, nofun⟩
  | .adjacent name content, hrepr, _ => exact ⟨hbeside name (hrepr.2 name List.mem_cons_self) htag, nofun⟩
  | .external, _, _ =>
    rw [EnumRepr.tagLoad, hr.keysAt path _ hobject] at htag
    cases fields with
    | nil => cases htag
    | cons b fields =>
      obtain ⟨name, x⟩ := b
      cases htag
      subst htagv
      refine ⟨?_, fun _ => rfl⟩
      intro hnone
      exact Assoc.find_eq_none.1 hnone _ List.mem_cons_self rfl

mutual

/-- Loading finds every name that it starts from. -/
theorem Member.find_lead (hr : r.Reads root) (hobject : root.subtree path = some (.node fields)) {l : Str} :
    ∀ (m : Member) (d : Data), m.Holds impl tree d → m.Needed impl d → (∀ k ∈ m.keys d, ¬ VPath.Reserved k) →
      m.load impl r path = .ok d → l ∈ m.leads d → Assoc.find l fields ≠ none
  | .plain f, d, _, ⟨haliases, hdefault, hneeds⟩, hreserved, hload, hl => by
    cases List.mem_singleton.1 hl
    intro hnone
    have habsent : root.subtree (path.childName f.name) = none := by
      rw [Value.subtree_childName hobject (hreserved f.name List.mem_cons_self)]
      exact hnone
    have hfield : f.load r path ((impl f.ty).load r) = (impl f.ty).load r (path.childName f.name) := by
      rw [Field.load, haliases, hdefault]
      rfl
    exact hneeds hr habsent (hfield.symm.trans hload)
  | .struct ms, .struct ds, h, hneeded, hreserved, hload, hl => by
    obtain ⟨ds', hload, heq⟩ := Except.bind_eq_ok.1 hload
    cases heq
    exact find_lead_members hr hobject ms ds h hneeded hreserved hload hl
  | .enum repr expecting variants, .variant index ds, ⟨hdef, v, hv, _⟩, hneeded, _, hload, hl => by
    obtain ⟨hother, haliases⟩ := hneeded v hv
    rw [Member.leads, hv] at hl
    cases List.mem_singleton.1 hl
    exact (lead_of_loadEnum hr hdef hv hother haliases hobject hload).1

theorem find_lead_members (hr : r.Reads root) (hobject : root.subtree path = some (.node fields)) {l : Str} :
    ∀ (ms : List Member) (ds : List Data), MembersHold impl tree ms ds → MembersNeeded impl ms ds →
      (∀ k ∈ memberKeys ms ds, ¬ VPath.Reserved k) → loadMembers impl ms r path = .ok ds → l ∈ memberLeads ms ds →
        Assoc.find l fields ≠ none
  | [], [], _, _, _, _, hl => nomatch hl
  | m :: ms, d :: ds, ⟨h, hs⟩, ⟨hneeded, hneededs⟩, hreserved, hload, hl => by
    obtain ⟨d', hm, hload⟩ := Except.bind_eq_ok.1 hload
    obtain ⟨ds', hms, heq⟩ := Except.bind_eq_ok.1 hload
    cases heq
    rcases List.mem_append.1 hl with hl | hl
    · exact Member.find_lead hr hobject m d h hneeded (fun k hk => hreserved k (List.mem_append_left _ hk)) hm hl
    · exact find_lead_members hr hobject ms ds hs hneededs
        (fun k hk => hreserved k (List.mem_append_right _ hk)) hms hl

end

mutual

/-- Every external tag that is read is the least name of the vnode. -/
theorem Member.clear_of_load {all : List Str} (hr : r.Reads root) (hobject : root.subtree path = some (.node fields))
    (hleast : ∀ k, (fields.map Prod.fst).head? = some k → ∀ name ∈ all, k ≤ name) : ∀ (m : Member) (d : Data)
      (before : List Str), m.Holds impl tree d → m.Needed impl d → m.load impl r path = .ok d → m.Clear [] d before →
        m.Clear all d before
  | .plain _, _, _, _, _, _, _ => trivial
  | .struct ms, .struct ds, before, h, hneeded, hload, hclear => by
    obtain ⟨ds', hload, heq⟩ := Except.bind_eq_ok.1 hload
    cases heq
    exact clear_members_of_load hr hobject hleast ms ds before h hneeded hload hclear
  | .enum repr expecting variants, .variant index ds, before, ⟨hdef, v, hv, _⟩, hneeded, hload, hclear => by
    obtain ⟨hother, haliases⟩ := hneeded v hv
    refine ⟨hclear.1, fun hexternal w hw name hname => ?_⟩
    cases hv.symm.trans hw
    exact hleast _ ((lead_of_loadEnum hr hdef hv hother haliases hobject hload).2 hexternal) name hname

theorem clear_members_of_load {all : List Str} (hr : r.Reads root) (hobject : root.subtree path = some (.node fields))
    (hleast : ∀ k, (fields.map Prod.fst).head? = some k → ∀ name ∈ all, k ≤ name) : ∀ (ms : List Member)
      (ds : List Data) (before : List Str), MembersHold impl tree ms ds → MembersNeeded impl ms ds →
        loadMembers impl ms r path = .ok ds → MembersClear [] ms ds before → MembersClear all ms ds before
  | [], [], _, _, _, _, _ => trivial
  | m :: ms, d :: ds, before, ⟨h, hs⟩, ⟨hneeded, hneededs⟩, hload, ⟨hclear, hclears⟩ => by
    obtain ⟨d', hm, hload⟩ := Except.bind_eq_ok.1 hload
    obtain ⟨ds', hms, heq⟩ := Except.bind_eq_ok.1 hload
    cases heq
    exact ⟨Member.clear_of_load hr hobject hleast m d before h hneeded hm hclear,
      clear_members_of_load hr hobject hleast ms ds _ hs hneededs hms hclears⟩

end

/-- The first name of an object is its least one. -/
theorem least_of_head {fields : List (Str × Value)} (hs : Assoc.Sorted fields) {k : Str}
    (hhead : (fields.map Prod.fst).head? = some k) : ∀ name, Assoc.find name fields ≠ none → k ≤ name := by
  intro name hname
  obtain ⟨x, hx⟩ := Option.ne_none_iff_exists'.1 hname
  cases fields with
  | nil => cases hhead
  | cons b fields =>
    cases hhead
    rcases List.mem_cons.1 (Assoc.mem_of_find hx) with heq | hmem
    · rw [← heq]
    · obtain ⟨hhead, -⟩ := List.pairwise_cons.1 hs
      exact le_of_lt (hhead name (List.mem_map_of_mem (f := Prod.fst) hmem))

variable {ms : List Member} {ds : List Data}

/-- A value that is loaded as it was stored was not disturbed, if none of its parts has a stand-in. -/
theorem undisturbed_of_load (h : MembersHold impl tree ms ds) (hneeded : MembersNeeded impl ms ds)
    (hnames : StoredNames (memberKeys ms ds)) (hr : r.Reads root)
    (hobject : root.subtree path = some (.node (membersAfter tree ms ds [])))
    (hload : loadMembers impl ms r path = .ok ds) : Undisturbed ms ds := by
  have hclear : MembersClear [] ms ds [] := clear_members_of_leads ms ds [] h hnames.1 fun l hl =>
    find_lead_members hr hobject ms ds h hneeded hnames.2 hload hl
  have hin := membersIn_after ms ds [] [] hclear hnames.1 h
  apply clear_members_of_load hr hobject _ ms ds [] h hneeded hload hclear
  intro k hk name hname
  exact least_of_head (sorted_membersAfter ms ds Assoc.sorted_nil) hk name (find_of_membersIn ms ds h hin hname)

end Reading

end Missed

/-- **A struct with flattened fields is loaded as it was stored if none of them disturbs a sibling, and only
then if every part of it is needed.** -/
theorem flattened_loads {impl : DataType → Impl} {tree : DataType → Data → Value} {ms : List Member}
    {ds : List Data} (h : MembersHold impl tree ms ds) (hnames : StoredNames (memberKeys ms ds)) (r : TreeReader)
    (hr : r.Reads (MemWriter.new.run ((structImpl impl ms).store (.struct ds) .root)).value) :
    (Undisturbed ms ds → (structImpl impl ms).load r .root = .ok (.struct ds)) ∧
      (MembersNeeded impl ms ds → (structImpl impl ms).load r .root = .ok (.struct ds) → Undisturbed ms ds) := by
  have hputs := (builds_members ms ds [] .root h hnames fun _ _ => rfl).puts (.node []) (.inr ⟨rfl, rfl⟩)
  rw [show VPath.root.segments = [] from rfl, Value.setIn_nil] at hputs
  have hroot : (MemWriter.new.run ((structImpl impl ms).store (.struct ds) .root)).value.subtree .root =
      some (.node (membersAfter tree ms ds [])) := hputs.symm
  constructor
  · intro hclear
    exact (structImpl_keeps h hnames hclear).loads hr hroot
  · intro hneeded hload
    obtain ⟨ds', hload, heq⟩ := Except.bind_eq_ok.1 hload
    cases heq
    exact undisturbed_of_load h hneeded hnames hr hroot hload

end Flattened

/-! ## An integer beside an enum -/

/-- An integer field and a flattened enum, in this order or the other. -/
def sampleMembers (layout : EnumRepr) (enumFirst : Bool) : List (@Member Reference.externals) :=
  letI := Reference.externals
  let age : Member := .plain ⟨⟨"age"⟩, [], none, .scalar .i64⟩
  let state : Member := .enum layout none [⟨⟨"on"⟩, [], false, .unit⟩]
  if enumFirst then [state, age] else [age, state]

def samplePair (enumFirst : Bool) : List (@Data Reference.externals) :=
  letI := Reference.externals
  if enumFirst then [.variant 0 [], .scalar (.i64 5)] else [.scalar (.i64 5), .variant 0 []]

theorem sampleMembers_hold : letI := Reference.externals
    ∀ layout enumFirst, layout = .external ∨ layout = .internal ⟨"t"⟩ →
      MembersHold (typedImpl sampleDefs 1) (toValue sampleDefs) (sampleMembers layout enumFirst)
        (samplePair enumFirst) := by
  let _ := Reference.externals
  intro layout enumFirst hlayout
  have hage : (typedImpl sampleDefs 1 (.scalar .i64)).Keeps (.scalar (.i64 5)) (toValue sampleDefs (.scalar .i64)
      (.scalar (.i64 5))) := typedImpl_keeps sampleDefs_wf trivial rfl (by decide)
  have hdef : (Definition.enum layout none [⟨⟨"on"⟩, [], false, .unit⟩]).WF := by
    rcases hlayout with rfl | rfl
    · refine ⟨trivial, ?_, List.pairwise_singleton _ _⟩
      intro v hv
      cases List.mem_singleton.1 hv
      exact ⟨by decide, nofun, by decide, nofun, by decide, by decide⟩
    · refine ⟨trivial, ?_, List.pairwise_singleton _ _⟩
      intro v hv
      cases List.mem_singleton.1 hv
      exact ⟨by decide, nofun, by decide, nofun, by decide, by decide⟩
  cases enumFirst with
  | true => exact ⟨⟨hdef, _, rfl, .nil⟩, hage, trivial⟩
  | false => exact ⟨hage, ⟨hdef, _, rfl, .nil⟩, trivial⟩

/-- An enum with a tag field that comes first is loaded with its sibling. -/
theorem flattened_loads_first : letI := Reference.externals
    let I := structImpl (typedImpl sampleDefs 1) (sampleMembers (.internal ⟨"t"⟩) true)
    let stored := MemWriter.new.run (I.store (.struct (samplePair true)) .root)
    Undisturbed (sampleMembers (.internal ⟨"t"⟩) true) (samplePair true) ∧
      I.load stored.toTreeReader .root = .ok (.struct (samplePair true)) := by
  let _ := Reference.externals
  have hnames : StoredNames (memberKeys (sampleMembers (.internal ⟨"t"⟩) true) (samplePair true)) :=
    ⟨by decide, by decide⟩
  have hclear : Undisturbed (sampleMembers (.internal ⟨"t"⟩) true) (samplePair true) := ⟨⟨rfl, nofun⟩, trivial, trivial⟩
  exact ⟨hclear, (flattened_loads (sampleMembers_hold _ _ (.inr rfl)) hnames _ (MemWriter.reads _)).1 hclear⟩

/-- The calls of a flattened enum clear what was stored before them, and the first name of a vnode need not
be an external tag. -/
theorem flattened_enum_disturbs : letI := Reference.externals
    let written := fun layout enumFirst =>
      MembersHold (typedImpl sampleDefs 1) (toValue sampleDefs) (sampleMembers layout enumFirst)
        (samplePair enumFirst) ∧ StoredNames (memberKeys (sampleMembers layout enumFirst) (samplePair enumFirst))
    let loaded := fun layout enumFirst =>
      let I := structImpl (typedImpl sampleDefs 1) (sampleMembers layout enumFirst)
      I.load (MemWriter.new.run (I.store (.struct (samplePair enumFirst)) .root)).toTreeReader .root
    (written (.internal ⟨"t"⟩) false ∧
        loaded (.internal ⟨"t"⟩) false = .error (.pathNotFound ⟨[.name ⟨"age"⟩]⟩)) ∧
      written .external true ∧ loaded .external true = .error (.corrupt "unknown enum variant tag: age") := by
  let _ := Reference.externals
  refine ⟨⟨⟨sampleMembers_hold _ _ (.inr rfl), by decide, by decide⟩, rfl⟩, ⟨?_, by decide, by decide⟩, rfl⟩
  exact sampleMembers_hold _ _ (.inl rfl)

end ArborDb
