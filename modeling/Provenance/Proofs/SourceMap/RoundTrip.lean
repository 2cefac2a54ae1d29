/-
# Documents read back

A source map that has been read from a document is read back from every form that it is written in: from
its document, from the text of the document, and from the text in its data URL.  Reading it again leaves
nothing to tell, because the contents fit the sources already.

The main facts:

* `ofMembers_members` : the fields of a document are those that it was written for;
* `ofJson_toJson`, `ofJson_toText` : documents and their texts are read back;
* `payload?_dataUrl` : the text in a data URL is the text of the document;
* `ofJson_roundTrip` : what a document gives, and that it is read back from every form.
-/
import Provenance.Proofs.Except
import Provenance.Proofs.Json.Display
import Provenance.Proofs.Json.Parser
import Provenance.Proofs.SourceMap.Document
import Provenance.Proofs.Text.Decoding

namespace Provenance.SourceMap

variable {m : SourceMap}

/-! ## Looking members up -/

/-- A member is found under no other key. -/
theorem lookup_cons_of_ne {key other : Text} (h : other ≠ key) (value : Json)
    (rest : List (Text × Json)) : ((key, value) :: rest).lookup other = rest.lookup other := by
  simp [List.lookup_cons, beq_eq_false_iff_ne.mpr h]

theorem lookup_optionalMember_self {key : Text} (value : Option Json) {rest : List (Text × Json)}
    (h : rest.lookup key = none) : (optionalMember key value ++ rest).lookup key = value := by
  cases value with
  | none => exact h
  | some v => exact List.lookup_cons_self

theorem lookup_optionalMember_of_ne {key other : Text} (h : other ≠ key) (value : Option Json)
    (rest : List (Text × Json)) :
    (optionalMember key value ++ rest).lookup other = rest.lookup other := by
  cases value with
  | none => rfl
  | some v => exact lookup_cons_of_ne h v rest

/-- The members of a document that may be missing are found under their keys. -/
theorem lookup_optionalMembers (m : SourceMap) :
    m.optionalMembers.lookup (Text.ofString "sourcesContent") =
        m.contents.map (fun cs => .arr (cs.map contentJson)) ∧
      m.optionalMembers.lookup (Text.ofString "file") = m.file.map .str ∧
      m.optionalMembers.lookup (Text.ofString "sourceRoot") = m.sourceRoot.map .str := by
  have hroot : ∀ key, key ≠ Text.ofString "sourceRoot" →
      (optionalMember "sourceRoot" (m.sourceRoot.map .str)).lookup key = none := by
    intro key hkey
    have h := lookup_optionalMember_of_ne hkey (m.sourceRoot.map .str) []
    rwa [List.append_nil] at h
  unfold optionalMembers
  refine ⟨?_, ?_, ?_⟩
  · apply lookup_optionalMember_self
    rw [lookup_optionalMember_of_ne (by decide), hroot _ (by decide)]
  · rw [lookup_optionalMember_of_ne (by decide)]
    exact lookup_optionalMember_self _ (hroot _ (by decide))
  · rw [lookup_optionalMember_of_ne (by decide), lookup_optionalMember_of_ne (by decide),
      ← List.append_nil (optionalMember "sourceRoot" _)]
    exact lookup_optionalMember_self _ rfl

/-- The members that every document has are found under their keys. -/
theorem lookup_members (m : SourceMap) :
    m.members.lookup (Text.ofString "version") = some (.num 3) ∧
      m.members.lookup (Text.ofString "sources") = some (.arr (m.sources.map .str)) ∧
      m.members.lookup (Text.ofString "names") = some (.arr (m.names.map .str)) ∧
      m.members.lookup (Text.ofString "mappings") = some (.str m.mappings) := by
  refine ⟨List.lookup_cons_self, ?_, ?_, ?_⟩
  · rw [members, lookup_cons_of_ne (by decide), List.lookup_cons_self]
  · rw [members, lookup_cons_of_ne (by decide), lookup_cons_of_ne (by decide), List.lookup_cons_self]
  · rw [members, lookup_cons_of_ne (by decide), lookup_cons_of_ne (by decide),
      lookup_cons_of_ne (by decide), List.lookup_cons_self]

/-- All other members of a document may be missing. -/
theorem lookup_members_of_ne (m : SourceMap) {key : Text} (hversion : key ≠ Text.ofString "version")
    (hsources : key ≠ Text.ofString "sources") (hnames : key ≠ Text.ofString "names")
    (hmappings : key ≠ Text.ofString "mappings") :
    m.members.lookup key = m.optionalMembers.lookup key := by
  rw [members, lookup_cons_of_ne hversion, lookup_cons_of_ne hsources, lookup_cons_of_ne hnames,
    lookup_cons_of_ne hmappings]

/-! ## Fields -/

theorem texts?_arr (ts : List Text) : texts? (.arr (ts.map .str)) = some ts := mapM_str ts

theorem contents?_arr (cs : List (Option Text)) : contents? (.arr (cs.map contentJson)) = some cs :=
  mapM_contentJson cs

theorem optionalText_map_str (fault : FormatError) (t : Option Text) :
    optionalText fault (t.map .str) = .ok t := by
  cases t <;> rfl

/-- **The fields of a document are those that it was written for.** -/
theorem ofMembers_members (m : SourceMap) : ofMembers m.members = .ok m := by
  obtain ⟨hversion, hsources, hnames, hmappings⟩ := m.lookup_members
  obtain ⟨hcontents, hfile, hroot⟩ := m.lookup_optionalMembers
  rw [← m.lookup_members_of_ne (by decide) (by decide) (by decide) (by decide)]
    at hcontents hfile hroot
  have hthree : checkVersion (some (.num 3)) = .ok () := rfl
  have hread : ∀ ts fault, required texts? fault (some (.arr (ts.map Json.str))) = .ok ts := by
    intro ts fault
    rw [required, texts?_arr]
  rw [ofMembers, hversion, hsources, hnames, hmappings, hcontents, hfile, hroot, hthree]
  simp only [hread, optionalText_map_str]
  obtain ⟨sources, contents, names, mappings, file, sourceRoot⟩ := m
  cases contents with
  | none => rfl
  | some cs =>
    have hknown : required contents? .contents (some (.arr (cs.map contentJson))) = .ok cs := by
      rw [required, contents?_arr]
    simp only [Option.map_some, hknown]
    rfl

/-- The contents of a map are unknown, or there is one for each source. -/
def Fitted (m : SourceMap) : Prop := ∀ contents ∈ m.contents, contents.length = m.sources.length

/-- A fitted map is left as it is, with nothing to tell. -/
theorem fit_of_fitted (h : m.Fitted) : m.fit = (m, []) := by
  unfold fit
  cases hcontents : m.contents with
  | none => rfl
  | some contents => exact if_pos (h contents hcontents)

/-! ## Documents and their texts -/

/-- A document that stands for an object gives the fields of the object. -/
theorem ofJson_of_obj {document : Json} {members : List (Text × Json)}
    (h : documentValue document = .ok (.obj members)) :
    ofJson document = (ofMembers members).map fit := by
  rw [ofJson, h]
  show (do
    let m ← ofMembers members
    .ok m.fit) = _
  cases ofMembers members <;> rfl

/-- **The document of a fitted map is read back.** -/
theorem ofJson_toJson (h : m.Fitted) : ofJson m.toJson = .ok (m, []) := by
  rw [toJson_eq, ofJson_of_obj rfl, ofMembers_members, Except.map, fit_of_fitted h]

/-- No key stands twice in a document. -/
theorem nodup_keys_members (m : SourceMap) : (m.members.map Prod.fst).Nodup := by
  have hoptional : ∀ (key : Text) value,
      ((optionalMember key value).map Prod.fst).Sublist [key] := by
    intro key value
    cases value with
    | none => exact List.nil_sublist _
    | some v => exact List.Sublist.refl _
  have hkeys : ([("version" : Text), "sources", "names", "mappings"] ++ ([("sourcesContent" : Text)] ++
      ([("file" : Text)] ++ [("sourceRoot" : Text)]))).Nodup := by decide
  refine hkeys.sublist ?_
  simp only [members, optionalMembers, List.map_cons, List.map_append]
  exact (List.Sublist.refl [Text.ofString "version", Text.ofString "sources", Text.ofString "names",
    Text.ofString "mappings"]).append
      ((hoptional _ _).append ((hoptional _ _).append (hoptional _ _)))

theorem parse_toText (m : SourceMap) : Json.parse m.toText = some m.toJson := by
  rw [toText, toJson_eq]
  exact Json.parse_render_obj m.simple_members m.nodup_keys_members

/-- **The text of the document is read back.** -/
theorem ofJson_toText (h : m.Fitted) : ofJson (.str m.toText) = .ok (m, []) := by
  have hvalue : documentValue (.str m.toText) = .ok (.obj m.members) := by
    rw [documentValue, parse_toText, toJson_eq]
  rw [ofJson_of_obj hvalue, ofMembers_members, Except.map, fit_of_fitted h]

/-! ## Data URLs -/

/-- What a data URL starts with. -/
def urlPrefix : Text := "data:application/json;charset=utf-8;base64,"

/-- The text in a data URL. -/
def payload? (url : Text) : Option Text := do
  let encoded ← Json.word? urlPrefix url
  let bytes ← Base64.decode? encoded
  Text.ofUtf8? bytes

/-- **The text in a data URL is the text of the document.** -/
theorem payload?_dataUrl (m : SourceMap) : payload? m.dataUrl = some m.toText := by
  have hword : Json.word? urlPrefix m.dataUrl = some (Base64.encode m.toText.utf8) := by
    rw [Json.word?, dataUrl, ← urlPrefix, if_pos (by simp), List.drop_left]
  rw [payload?, hword]
  show ((Base64.decode? (Base64.encode m.toText.utf8)).bind Text.ofUtf8?) = _
  rw [Base64.decode?_encode]
  exact Text.ofUtf8?_utf8 m.wellFormed_toText

/-! ## Round trip -/

/-- The document is an object whose version has no words. -/
def WordlessVersion (document : Json) : Prop :=
  ∃ members version, documentValue document = .ok (.obj members) ∧
    members.lookup ("version" : Text) = some version ∧ version.Wordless

/-- A map is read back from its document, from the text of the document and from the text in its data
URL, with nothing to tell. -/
structure ReadBack (m : SourceMap) : Prop where
  document : ofJson m.toJson = .ok (m, [])
  text : ofJson (.str m.toText) = .ok (m, [])
  url : ∃ t, payload? m.dataUrl = some t ∧ ofJson (.str t) = .ok (m, [])

theorem readBack_of_fitted (h : m.Fitted) : m.ReadBack :=
  ⟨ofJson_toJson h, ofJson_toText h, m.toText, m.payload?_dataUrl, ofJson_toText h⟩

/-! ## Documents that are refused -/

/-- If the computation fails, there are words for what is wrong. -/
def Worded {α : Type} (x : Except LoadError α) : Prop := x ≠ .error .unprintableVersion

theorem Worded.ok {α : Type} (a : α) : Worded (.ok a) := nofun

theorem Worded.bind {α β : Type} {x : Except LoadError α} {f : α → Except LoadError β}
    (hx : Worded x) (hf : ∀ a, Worded (f a)) : Worded (x >>= f) := by
  intro h
  rcases bind_eq_error_iff.mp h with h | ⟨a, -, h⟩
  · exact hx h
  · exact hf a h

theorem Worded.map {α β : Type} {x : Except LoadError α} (hx : Worded x) (f : α → β) :
    Worded (x.map f) := fun h => hx (map_eq_error_iff.mp h)

theorem worded_required {α : Type} (read : Json → Option α) (fault : FormatError)
    (value : Option Json) : Worded (required read fault value) := by
  unfold required
  cases value with
  | none => exact nofun
  | some v => cases hread : read v <;> simp [Worded, hread]

theorem worded_optionalText (fault : FormatError) (value : Option Json) :
    Worded (optionalText fault value) := by
  unfold optionalText
  split <;> simp [Worded]

theorem worded_documentValue (document : Json) : Worded (documentValue document) := by
  unfold documentValue
  split
  · split <;> simp [Worded]
  · exact .ok _

/-- A version that is not 3 is shown in words, unless it has none. -/
theorem checkVersion_eq_unprintable_iff {version : Option Json} :
    checkVersion version = .error .unprintableVersion ↔ ∃ v, version = some v ∧ v.Wordless := by
  cases version with
  | none => exact iff_of_false nofun nofun
  | some v =>
    simp only [Option.some.injEq, exists_eq_left', ← Json.display_eq_none_iff]
    cases v with
    | num x =>
      have hnum : (Json.num x).display ≠ none := by simp [Json.display]
      refine iff_of_false ?_ hnum
      unfold checkVersion
      simp only
      split <;> simp
    | _ =>
      unfold checkVersion
      simp only
      split <;> simp_all

/-- No other field leaves a document without words for what is wrong with it. -/
theorem ofMembers_eq_unprintable_iff {members : List (Text × Json)} :
    ofMembers members = .error .unprintableVersion ↔
      ∃ v, members.lookup ("version" : Text) = some v ∧ v.Wordless := by
  rw [← checkVersion_eq_unprintable_iff, ofMembers, bind_eq_error_iff]
  refine or_iff_left ?_
  rintro ⟨-, -, h⟩
  refine Worded.bind (worded_required _ _ _) (fun sources => ?_) h
  have hrest : ∀ names {known : Except LoadError _}, Worded known → Worded (do
      let mappings ← required Json.text? .mappings (members.lookup ("mappings" : Text))
      let contents ← known
      let file ← optionalText .file (members.lookup ("file" : Text))
      let sourceRoot ← optionalText .sourceRoot (members.lookup ("sourceRoot" : Text))
      .ok { sources, contents, names, mappings, file, sourceRoot : SourceMap }) :=
    fun _ _ hknown => (worded_required _ _ _).bind fun _ => hknown.bind fun _ =>
      (worded_optionalText _ _).bind fun _ => (worded_optionalText _ _).bind fun _ => .ok _
  -- the names are given or not, and so are the contents
  cases members.lookup (Text.ofString "names") with
  | none =>
    cases members.lookup (Text.ofString "sourcesContent") with
    | none => exact (Worded.ok _).bind fun _ => hrest _ (.ok _)
    | some v => exact (Worded.ok _).bind fun _ => hrest _ ((worded_required _ _ _).map _)
  | some names =>
    cases members.lookup (Text.ofString "sourcesContent") with
    | none => exact (worded_required _ _ _).bind fun _ => hrest _ (.ok _)
    | some v =>
      exact (worded_required _ _ _).bind fun _ => hrest _ ((worded_required _ _ _).map _)

/-- A document fails without words for it if its version has no words. -/
theorem ofJson_eq_unprintable_iff {document : Json} :
    ofJson document = .error .unprintableVersion ↔ WordlessVersion document := by
  unfold WordlessVersion
  cases hvalue : documentValue document with
  | error e =>
    refine iff_of_false ?_ (by simp)
    rw [ofJson, hvalue]
    intro h
    have he : e = .unprintableVersion := Except.error.inj h
    rw [he] at hvalue
    exact worded_documentValue document hvalue
  | ok value =>
    cases value with
    | obj members =>
      rw [ofJson_of_obj hvalue, map_eq_error_iff, ofMembers_eq_unprintable_iff]
      simp
    | _ =>
      refine iff_of_false ?_ (by simp)
      rw [ofJson, hvalue]
      exact nofun

theorem fitted_of_ofJson {document : Json} {notices : List Notice}
    (h : ofJson document = .ok (m, notices)) : m.Fitted := by
  obtain ⟨value, hvalue, hread⟩ := bind_eq_ok_iff.mp h
  cases value with
  | obj members =>
    obtain ⟨read, -, hfit⟩ := bind_eq_ok_iff.mp hread
    have hm : read.fit.1 = m := congrArg Prod.fst (Except.ok.inj hfit)
    exact hm ▸ read.length_contents_fit
  | _ => cases hread

/-- **A document that gives a source map gives one that survives.**  Any other document is refused for a
fault of its format, unless it is an object whose version has no words. -/
theorem ofJson_roundTrip (document : Json) :
    (WordlessVersion document ∧ ofJson document = .error .unprintableVersion) ∨
      ¬ WordlessVersion document ∧
        ((∃ fault, ofJson document = .error (.format fault)) ∨
          ∃ m notices, ofJson document = .ok (m, notices) ∧ m.Fitted ∧ m.ReadBack) := by
  rw [← ofJson_eq_unprintable_iff]
  cases hresult : ofJson document with
  | error e =>
    cases e with
    | format fault => exact Or.inr ⟨nofun, Or.inl ⟨fault, rfl⟩⟩
    | unprintableVersion => exact Or.inl ⟨rfl, rfl⟩
  | ok read =>
    obtain ⟨m, notices⟩ := read
    have hfitted := fitted_of_ofJson hresult
    exact Or.inr ⟨nofun, Or.inr ⟨m, notices, rfl, hfitted, readBack_of_fitted hfitted⟩⟩

-- the version of this document is an object that cannot be shown
example : ofJson (.obj [("version", .obj [("toString", .num 1)]), ("sources", .arr []),
    ("mappings", .str "")]) = .error .unprintableVersion :=
  ofJson_eq_unprintable_iff.mpr ⟨_, _, rfl, rfl, .obj rfl⟩

end Provenance.SourceMap
