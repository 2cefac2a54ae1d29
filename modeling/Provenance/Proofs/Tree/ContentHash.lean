/-
# What the content hash of a source tells

If no two streams of bytes that have been hashed share a digest, well-formed sources with one content
hash have one text: the fields that were hashed for a source are read back, and so are those of its
parts.  They are composed to the same result, at every depth and under every limit, if none of them
inherits a further source, which is not hashed.

The main facts:

* `ContentHash.CollisionFree.fields_eq` : without collisions, equal content hashes come of equal
  fields;
* `Source.Formed.fields` : the fields of a source of well-formed texts are well formed;
* `Source.equal_of_contentHash_eq` : sources with one content hash have one text and one result.
-/
import Provenance.Proofs.Digest.ContentHash
import Provenance.Proofs.SourceMap.Document
import Provenance.Proofs.Tree.Composition
import Provenance.Tree.ContentHash

namespace Provenance

/-! ## Well-formed sources -/

/-- The content and the name of an edit are well formed. -/
def Edit.Formed (e : Edit) : Prop :=
  e.content.wellFormed = true ∧ ∀ t ∈ e.name, t.wellFormed = true

/-- A further source is inherited only under the name of the source that the map points to, and only by
a generated text that has the content of that source. -/
def GeneratedText.InheritsOwn (node : GeneratedText) : Prop :=
  node.inherits = true → node.name = Inputs.prototypeKey ∧ node.sourceText.isSome = true

/-- The texts of a generated text, apart from those in its map, are well formed, and it inherits nothing
but its own source. -/
structure GeneratedText.Formed (node : GeneratedText) : Prop where
  text : node.text.wellFormed = true
  name : node.name.wellFormed = true
  sourceText : ∀ t ∈ node.sourceText, t.wellFormed = true
  inheritsOwn : node.InheritsOwn

/-- The texts that a source has itself, apart from its parts and its map, are well formed. -/
def Source.Formed : Source → Prop
  | plain t => t.wellFormed = true
  | file t name => t.wellFormed = true ∧ name.wellFormed = true
  | generated _ node inputs => node.Formed ∧ ∀ input ∈ inputs, input.1.wellFormed = true
  | joined _ _ => True
  | edited _ _ edits => ∀ e ∈ edits, e.Formed
  | kept _ _ => True

namespace ContentHash

/-! ## Hashes without collisions -/

/-- No two different streams of bytes, made of fields that have been hashed, share a digest. -/
def CollisionFree (hashed : List (List Text)) : Prop :=
  ∀ fs ∈ hashed, ∀ gs ∈ hashed,
    Sha256.digest (stream fs) = Sha256.digest (stream gs) → stream fs = stream gs

/-- There is no collision where the same fields are hashed again and again. -/
theorem collisionFree_of_forall_eq {hashed : List (List Text)} (fields : List Text)
    (h : ∀ fs ∈ hashed, fs = fields) : CollisionFree hashed := by
  intro fs hfs gs hgs _
  rw [h fs hfs, h gs hgs]

/-- Whether some fields can be those of a generated text that inherits a further source: its name is the
prototype's key, and it has the content of the source of that name. -/
def mayInherit : List Text → Bool
  | kind :: name :: _ :: _ :: source :: _ =>
    kind = "mapped" && name = Inputs.prototypeKey && source ≠ markOptional none
  | _ => false

/-- No generated text that may inherit a further source has been hashed. -/
def Overt (hashed : List (List Text)) : Prop := ∀ fs ∈ hashed, mayInherit fs = false

instance (hashed : List (List Text)) : Decidable (Overt hashed) :=
  inferInstanceAs (Decidable (∀ fs ∈ hashed, mayInherit fs = false))

/-- Some well-formed fields have been hashed. -/
def Recorded (hashed : List (List Text)) (fields : List Text) : Prop :=
  fields ∈ hashed ∧ ∀ t ∈ fields, t.wellFormed = true

variable {hashed : List (List Text)}

/-- Without collisions, equal content hashes come of equal fields. -/
theorem CollisionFree.fields_eq (h : CollisionFree hashed) {fs gs : List Text}
    (hfs : Recorded hashed fs) (hgs : Recorded hashed gs) (heq : ofFields fs = ofFields gs) :
    fs = gs :=
  stream_inj hfs.2 hgs.2 (h fs hfs.1 gs hgs.1 (digest_eq_of_ofFields_eq heq))

/-- Without collisions, an ASCII text shares its content hash with no other text, well formed or
not. -/
theorem CollisionFree.text_eq (h : CollisionFree hashed) {s t : Text} (hs : [s] ∈ hashed)
    (ht : [t] ∈ hashed) (hascii : s.isAscii = true) (heq : ofFields [s] = ofFields [t]) : s = t :=
  stream_singleton_inj hascii (h [s] hs [t] ht (digest_eq_of_ofFields_eq heq))

/-! ## Reading fields back -/

theorem markOptional_inj {a b : Option Text} (h : markOptional a = markOptional b) : a = b := by
  cases a with
  | none =>
    cases b with
    | none => rfl
    | some t => exact absurd (List.cons.inj h).1 (by decide)
  | some s =>
    cases b with
    | none => exact absurd (List.cons.inj h).1 (by decide)
    | some t => exact congrArg some (List.cons.inj h).2

theorem editFields_inj (e f : Edit) (h : editFields e = editFields f) : e = f := by
  obtain ⟨start, stop, content, name⟩ := e
  obtain ⟨start', stop', content', name'⟩ := f
  simp only [editFields, List.cons.injEq, and_true] at h
  obtain ⟨hstart, hstop, rfl, hname⟩ := h
  rw [Text.ofNat_inj hstart, Text.ofNat_inj hstop, markOptional_inj hname]

/-- The fields of further sources tell which content hash stands under a key. -/
theorem lookup_eq_of_inputFields_eq {xs ys : List (Text × ContentHash)}
    (h : inputFields xs = inputFields ys) (key : Text) : xs.lookup key = ys.lookup key := by
  have hsort : List.mergeSort xs (fun a b => Text.le a.1 b.1) =
      List.mergeSort ys fun a b => Text.le a.1 b.1 := by
    refine flatMap_inj_of_length (Nat.succ_pos 1) (fun _ => rfl) (fun a b hab => ?_) h
    simp only [List.cons.injEq, and_true] at hab
    exact Prod.ext hab.1 hab.2
  rw [← lookup_mergeSort Text.le_refl Text.le_trans Text.le_total, hsort,
    lookup_mergeSort Text.le_refl Text.le_trans Text.le_total]

/-- The fields of a generated text tell the text with its map, and which content hash stands under a
key.  They do not tell whether it inherits a further source. -/
theorem generatedFields_inj {node node' : GeneratedText} {xs ys : List (Text × ContentHash)}
    (h : generatedFields node xs = generatedFields node' ys) :
    { node with inherits := false } = { node' with inherits := false } ∧
      ∀ key, xs.lookup key = ys.lookup key := by
  obtain ⟨text, name, map, sourceText, withhold, inherits⟩ := node
  obtain ⟨text', name', map', sourceText', withhold', inherits'⟩ := node'
  simp only [generatedFields, List.cons.injEq, true_and] at h
  obtain ⟨rfl, rfl, hmap, hsource, hwithhold, hinputs⟩ := h
  have hwords : Text.ofString "keep" ≠ Text.ofString "remove" := by decide
  have hflag : withhold = withhold' := by
    cases withhold with
    | false =>
      cases withhold' with
      | false => rfl
      | true => exact absurd hwithhold hwords
    | true =>
      cases withhold' with
      | false => exact absurd hwithhold.symm hwords
      | true => rfl
  rw [SourceMap.toText_inj hmap, markOptional_inj hsource, hflag]
  exact ⟨rfl, lookup_eq_of_inputFields_eq hinputs⟩

/-- Where no generated text has been hashed that may inherit a further source, none inherits one. -/
theorem Overt.inherits_eq_false (h : Overt hashed) {node : GeneratedText}
    {xs : List (Text × ContentHash)} (hnode : node.InheritsOwn)
    (hmem : generatedFields node xs ∈ hashed) : node.inherits = false := by
  by_contra hinherits
  obtain ⟨hname, hsource⟩ := hnode (Bool.eq_false_or_eq_true node.inherits |>.resolve_right hinherits)
  obtain ⟨source, hsource⟩ := Option.isSome_iff_exists.mp hsource
  have hmay := h _ hmem
  have hdiffer : markOptional (some source) ≠ markOptional none := fun heq => by
    cases markOptional_inj heq
  simp [generatedFields, mayInherit, hname, hsource, hdiffer] at hmay

/-! ## Well-formed fields -/

theorem wellFormed_markOptional {t : Option Text} (h : ∀ s ∈ t, s.wellFormed = true) :
    (markOptional t).wellFormed = true := by
  cases t with
  | none => rfl
  | some s => exact Text.wellFormed_append rfl (h s rfl)

/-- The fields of an edit with well-formed content are well formed. -/
theorem wellFormed_editFields {e : Edit} (h : e.Formed) :
    ∀ t ∈ editFields e, t.wellFormed = true := by
  have hnat : ∀ n, (Text.ofNat n).wellFormed = true := fun n =>
    Text.wellFormed_of_isAscii (Text.isAscii_ofNat n)
  simp only [editFields, List.forall_mem_cons]
  exact ⟨hnat _, hnat _, h.1, wellFormed_markOptional h.2, by simp⟩

/-- The fields of further sources are well formed if their keys and their content hashes are. -/
theorem wellFormed_inputFields {hashes : List (Text × ContentHash)}
    (h : ∀ e ∈ hashes, e.1.wellFormed = true ∧ Text.wellFormed e.2 = true) :
    ∀ t ∈ inputFields hashes, t.wellFormed = true := by
  intro t ht
  obtain ⟨e, he, ht⟩ := List.mem_flatMap.mp ht
  obtain ⟨hkey, hhash⟩ := h e (List.mem_mergeSort.mp he)
  simp only [List.mem_cons, List.not_mem_nil, or_false] at ht
  rcases ht with rfl | rfl
  · exact hkey
  · exact hhash

end ContentHash

namespace Source

open ContentHash (CollisionFree Recorded)

/-! ## The hashes of a source -/

/-- The fields that are hashed for a source. -/
def fields : Source → List Text
  | plain t => ContentHash.plainFields t
  | file t name => ContentHash.fileFields t name
  | generated _ node inputs => ContentHash.generatedFields node (inputHashesOf node inputs)
  | joined _ children => ContentHash.joinedFields (contentHashAll children)
  | edited _ base edits => ContentHash.editedFields (contentHash base) edits
  | kept _ child => fields child

theorem contentHash_eq (s : Source) : contentHash s = .ofFields s.fields := by
  induction s using partsInduction with
  | kept id child ih => rw [contentHash, fields, ih]
  | _ => rw [contentHash, fields]

theorem wellFormed_contentHash (s : Source) : Text.wellFormed s.contentHash = true := by
  rw [contentHash_eq]
  exact Text.wellFormed_of_isAscii (ContentHash.isAscii_ofFields _)

theorem wellFormed_contentHashAll (ss : List Source) :
    ∀ f ∈ contentHashAll ss, Text.wellFormed f = true := by
  induction ss with
  | nil => simp [contentHashAll]
  | cons s rest ih =>
    rw [contentHashAll]
    exact List.forall_mem_cons.mpr ⟨wellFormed_contentHash s, ih⟩

/-- The content hashes of the further sources that are listed. -/
theorem inputHashesOf_eq_map (node : GeneratedText) (inputs : List (Text × Source)) :
    inputHashesOf node inputs =
      (node.listed inputs).map fun input => (input.1, contentHash input.2) := by
  induction inputs with
  | nil => rw [inputHashesOf]; rfl
  | cons input rest ih =>
    obtain ⟨key, s⟩ := input
    rw [inputHashesOf, ih, GeneratedText.listed, GeneratedText.listed, List.filter_cons]
    split <;> rfl

theorem wellFormed_inputHashesOf {node : GeneratedText} {inputs : List (Text × Source)}
    (h : ∀ input ∈ inputs, input.1.wellFormed = true) :
    ∀ e ∈ inputHashesOf node inputs, e.1.wellFormed = true ∧ Text.wellFormed e.2 = true := by
  rw [inputHashesOf_eq_map, List.forall_mem_map]
  intro input hinput
  exact ⟨h input (List.mem_filter.mp hinput).1, wellFormed_contentHash input.2⟩

/-- **The fields of a source of well-formed texts are well formed**, whatever its map. -/
theorem Formed.fields {s : Source} (h : s.Formed) (hkind : s.kind ≠ .kept) :
    ∀ t ∈ s.fields, t.wellFormed = true := by
  cases s with
  | plain t =>
    rw [Source.fields, ContentHash.plainFields]
    exact List.forall_mem_cons.mpr ⟨rfl, List.forall_mem_singleton.mpr h⟩
  | file t name =>
    rw [Source.fields, ContentHash.fileFields]
    exact List.forall_mem_cons.mpr ⟨rfl, List.forall_mem_cons.mpr
      ⟨h.2, List.forall_mem_singleton.mpr h.1⟩⟩
  | generated id node inputs =>
    obtain ⟨hnode, hkeys⟩ := h
    have hflag : Text.wellFormed (if node.withholdText then "remove" else "keep") = true := by
      cases node.withholdText <;> rfl
    simp only [Source.fields, ContentHash.generatedFields, List.forall_mem_cons]
    refine ⟨rfl, hnode.name, hnode.text, node.map.wellFormed_toText, ?_, hflag, ?_⟩
    · exact ContentHash.wellFormed_markOptional hnode.sourceText
    · exact ContentHash.wellFormed_inputFields (wellFormed_inputHashesOf hkeys)
  | joined id children =>
    rw [Source.fields, ContentHash.joinedFields]
    exact List.forall_mem_cons.mpr ⟨rfl, wellFormed_contentHashAll children⟩
  | edited id base edits =>
    simp only [Source.fields, ContentHash.editedFields, List.forall_mem_cons]
    refine ⟨rfl, wellFormed_contentHash base, ?_⟩
    intro t ht
    obtain ⟨e, he, ht⟩ := List.mem_flatMap.mp ht
    exact ContentHash.wellFormed_editFields (h e he) t ht
  | kept id child => exact absurd rfl hkind

/-- The fields of a source and of all its parts that are listed are well formed and have been hashed. -/
inductive HashedIn (hashed : List (List Text)) : Source → Prop where
  | plain {t : Text} (h : Recorded hashed (fields (.plain t))) : HashedIn hashed (.plain t)
  | file {t name : Text} (h : Recorded hashed (fields (.file t name))) :
      HashedIn hashed (.file t name)
  | generated {id : NodeId} {node : GeneratedText} {inputs : List (Text × Source)}
      (h : Recorded hashed (fields (.generated id node inputs))) (hnode : node.InheritsOwn)
      (hinputs : ∀ input ∈ node.listed inputs, HashedIn hashed input.2) :
      HashedIn hashed (.generated id node inputs)
  | joined {id : NodeId} {children : List Source} (h : Recorded hashed (fields (.joined id children)))
      (hchildren : ∀ s ∈ children, HashedIn hashed s) : HashedIn hashed (.joined id children)
  | edited {id : NodeId} {base : Source} {edits : List Edit}
      (h : Recorded hashed (fields (.edited id base edits))) (hbase : HashedIn hashed base) :
      HashedIn hashed (.edited id base edits)
  | kept {id : NodeId} {child : Source} (hchild : HashedIn hashed child) :
      HashedIn hashed (.kept id child)

variable {hashed : List (List Text)}

theorem HashedIn.recorded {s : Source} (h : HashedIn hashed s) : Recorded hashed s.fields := by
  induction h with
  | kept _ ih => rwa [fields]
  | _ => assumption

/-- What is remembered is put aside: below all wrappers there is a source of another kind that has the
same fields, the same text and the same results. -/
theorem HashedIn.exists_bare {s : Source} (h : HashedIn hashed s) :
    ∃ t, HashedIn hashed t ∧ t.kind ≠ .kept ∧ t.fields = s.fields ∧
      t.text = s.text ∧ ∀ limit depth, compositionAt limit depth t = compositionAt limit depth s := by
  induction h with
  | kept hchild ih =>
    obtain ⟨t, ht, hkind, hfields, htext, hresult⟩ := ih
    refine ⟨t, ht, hkind, by rw [hfields, fields], by rw [htext, text], fun limit depth => ?_⟩
    rw [hresult, compositionAt_kept]
  | plain h => exact ⟨_, .plain h, by simp [kind], rfl, rfl, fun _ _ => rfl⟩
  | file h => exact ⟨_, .file h, by simp [kind], rfl, rfl, fun _ _ => rfl⟩
  | generated h hnode hinputs =>
    exact ⟨_, .generated h hnode hinputs, by simp [kind], rfl, rfl, fun _ _ => rfl⟩
  | joined h hchildren => exact ⟨_, .joined h hchildren, by simp [kind], rfl, rfl, fun _ _ => rfl⟩
  | edited h hbase => exact ⟨_, .edited h hbase, by simp [kind], rfl, rfl, fun _ _ => rfl⟩

/-- The first field of a source names its kind. -/
theorem head?_fields {s : Source} (h : s.kind ≠ .kept) : s.fields.head? = some s.kind.word := by
  cases s with
  | kept id child => exact absurd rfl h
  | _ =>
    rw [fields]
    rfl

/-- Fields tell the kind of a source. -/
theorem kind_eq_of_fields_eq {s t : Source} (hs : s.kind ≠ .kept) (ht : t.kind ≠ .kept)
    (h : s.fields = t.fields) : s.kind = t.kind := by
  have hword : s.kind.word = t.kind.word :=
    Option.some.inj (by rw [← head?_fields hs, ← head?_fields ht, h])
  revert hword
  generalize s.kind = a
  generalize t.kind = b
  cases a <;> cases b <;> decide

/-! ## Equal content hashes -/

/-- Everything is listed where nothing is inherited. -/
theorem listed_eq_self {α : Type} {node : GeneratedText} (h : node.inherits = false)
    (inputs : List (Text × α)) : node.listed inputs = inputs := by
  refine List.filter_eq_self.mpr fun input _ => ?_
  rw [GeneratedText.lists, h]
  rfl

/-- Under a key stands the content hash of the further source there. -/
theorem lookup_inputHashesOf {node : GeneratedText} (h : node.inherits = false) (key : Text)
    (inputs : List (Text × Source)) :
    (inputHashesOf node inputs).lookup key = (inputs.lookup key).map contentHash := by
  rw [inputHashesOf_eq_map, listed_eq_self h]
  induction inputs with
  | nil => rfl
  | cons input rest ih =>
    rw [List.map_cons, List.lookup_cons, List.lookup_cons]
    cases key == input.1 with
    | true => rfl
    | false => exact ih

/-- Further sources under the same keys stand for the same sources of a map. -/
theorem keys_congr (node : GeneratedText) {inputs inputs' : List (Text × Source)}
    (h : ∀ key, (inputs.lookup key).isSome = (inputs'.lookup key).isSome) :
    node.keys inputs = node.keys inputs' := by
  unfold GeneratedText.keys GeneratedText.key? GeneratedText.found?
  simp only [h]

/-- Further sources with one content hash under a key have the same result under it, if any two of them
do. -/
theorem inputCompositionAt_congr {limit : Number} {depth : Nat} {key : Text}
    {inputs inputs' : List (Text × Source)}
    (hlookup : (inputs.lookup key).map contentHash = (inputs'.lookup key).map contentHash)
    (h : ∀ x ∈ inputs, ∀ y ∈ inputs', x.2.contentHash = y.2.contentHash →
      compositionAt limit depth x.2 = compositionAt limit depth y.2) :
    inputCompositionAt limit depth key inputs = inputCompositionAt limit depth key inputs' := by
  rw [inputCompositionAt_eq, inputCompositionAt_eq]
  cases hx : inputs.lookup key with
  | none =>
    rw [hx] at hlookup
    rw [Option.map_eq_none_iff.mp hlookup.symm]
  | some x =>
    rw [hx] at hlookup
    obtain ⟨y, hy, hxy⟩ := Option.map_eq_some_iff.mp hlookup.symm
    rw [hy]
    dsimp only
    rw [h _ (mem_of_lookup hx) _ (mem_of_lookup hy) hxy.symm]

/-- Generated texts with the same fields that inherit nothing have the same result, if any two of their
further sources that have one content hash do. -/
theorem compositionAt_generated_congr {limit : Number} {id id' : NodeId} {node node' : GeneratedText}
    {inputs inputs' : List (Text × Source)} (hnode : node.inherits = false)
    (hnode' : node'.inherits = false)
    (h : ∀ depth, ∀ x ∈ inputs, ∀ y ∈ inputs', x.2.contentHash = y.2.contentHash →
      compositionAt limit depth x.2 = compositionAt limit depth y.2)
    (heq : (generated id node inputs).fields = (generated id' node' inputs').fields) (depth : Nat) :
    compositionAt limit depth (generated id node inputs) =
      compositionAt limit depth (generated id' node' inputs') := by
  rw [fields, fields] at heq
  obtain ⟨hsame, hlookup⟩ := ContentHash.generatedFields_inj heq
  obtain rfl : node = node' := by
    rw [← hnode] at hsame
    rwa [show ({ node' with inherits := node.inherits } : GeneratedText) = node' by
      rw [hnode, ← hnode']] at hsame
  simp only [lookup_inputHashesOf hnode] at hlookup
  have hkeys : node.keys inputs = node.keys inputs' := by
    apply keys_congr node
    intro key
    have hsome := congrArg Option.isSome (hlookup key)
    rwa [Option.isSome_map, Option.isSome_map] at hsome
  have hinput : ∀ depth key, inputCompositionAt limit depth key inputs =
      inputCompositionAt limit depth key inputs' := fun depth key =>
    inputCompositionAt_congr (hlookup key) (h depth)
  simp only [compositionAt, hkeys, hinput]

/-- Sources whose content hashes are equal one by one have the same values if any two of them do. -/
theorem map_congr_of_contentHashAll {α : Type} {f : Source → α} {ss ts : List Source}
    (h : ∀ s ∈ ss, ∀ t ∈ ts, s.contentHash = t.contentHash → f s = f t)
    (heq : contentHashAll ss = contentHashAll ts) : ss.map f = ts.map f := by
  induction ss generalizing ts with
  | nil =>
    cases ts with
    | nil => rfl
    | cons t ts => cases heq
  | cons s ss ih =>
    cases ts with
    | nil => cases heq
    | cons t ts =>
      obtain ⟨hst, hrest⟩ := List.cons.inj heq
      rw [List.map_cons, List.map_cons, h s List.mem_cons_self t List.mem_cons_self hst,
        ih (fun s hs t ht => h s (List.mem_cons_of_mem _ hs) t (List.mem_cons_of_mem _ ht)) hrest]

/-- A source with the content hash of another has the text and the results of one of the other's kind
that has the same fields. -/
theorem HashedIn.exists_twin (hfree : CollisionFree hashed) {s t : Source} (hs : HashedIn hashed s)
    (hkind : s.kind ≠ .kept) (ht : HashedIn hashed t) (heq : s.contentHash = t.contentHash) :
    ∃ u, HashedIn hashed u ∧ u.kind = s.kind ∧ s.fields = u.fields ∧ u.text = t.text ∧
      ∀ limit depth, compositionAt limit depth u = compositionAt limit depth t := by
  obtain ⟨u, hu, hukind, hfields, htext, hresult⟩ := ht.exists_bare
  rw [contentHash_eq, contentHash_eq, ← hfields] at heq
  have hsu := hfree.fields_eq hs.recorded hu.recorded heq
  exact ⟨u, hu, (kind_eq_of_fields_eq hkind hukind hsu).symm, hsu, htext, hresult⟩

/-- What texts and results of some sources come to, one by one. -/
theorem textAll_eq_flatten (ss : List Source) : textAll ss = (ss.map text).flatten := by
  induction ss with
  | nil => rfl
  | cons s rest ih => rw [textAll, ih, List.map_cons, List.flatten_cons]

theorem compositionsAt_eq_mapM_id (limit : Number) (depth : Nat) (ss : List Source) :
    compositionsAt limit depth ss = (ss.map (compositionAt limit depth)).mapM id := by
  induction ss with
  | nil => rw [compositionsAt]; rfl
  | cons s rest ih =>
    rw [compositionsAt, ih, List.map_cons, List.mapM_cons]
    rfl

/-- **Sources with one content hash have one text**, and one result if no generated text has been hashed
that may inherit a further source. -/
theorem equal_of_contentHash_eq (hfree : CollisionFree hashed) {s t : Source}
    (hs : HashedIn hashed s) (ht : HashedIn hashed t) (heq : s.contentHash = t.contentHash) :
    s.text = t.text ∧ (ContentHash.Overt hashed → ∀ limit depth,
      compositionAt limit depth s = compositionAt limit depth t) := by
  -- by induction on the first source; the other may be wrapped, so its twin of the same kind is taken
  induction hs generalizing t with
  | kept hchild ih =>
    rw [contentHash_kept] at heq
    obtain ⟨htext, hresult⟩ := ih ht heq
    refine ⟨by rw [text, htext], fun hovert limit depth => ?_⟩
    rw [compositionAt_kept, hresult hovert]
  | @plain a h =>
    obtain ⟨u, hu, hkind, hfields, htext, hresult⟩ :=
      (HashedIn.plain h).exists_twin hfree (by simp [kind]) ht heq
    cases hu with
    | plain _ =>
      simp only [fields, ContentHash.plainFields, List.cons.injEq, true_and, and_true] at hfields
      rw [hfields]
      exact ⟨htext, fun _ => hresult⟩
    | _ => cases hkind
  | @file a name h =>
    obtain ⟨u, hu, hkind, hfields, htext, hresult⟩ :=
      (HashedIn.file h).exists_twin hfree (by simp [kind]) ht heq
    cases hu with
    | file _ =>
      simp only [fields, ContentHash.fileFields, List.cons.injEq, true_and, and_true] at hfields
      rw [hfields.1, hfields.2]
      exact ⟨htext, fun _ => hresult⟩
    | _ => cases hkind
  | @generated id node inputs h hnode hinputs ih =>
    obtain ⟨u, hu, hkind, hfields, htext, hresult⟩ :=
      (HashedIn.generated h hnode hinputs).exists_twin hfree (by simp [kind]) ht heq
    rw [← htext]
    cases hu with
    | @generated id' node' inputs' h' hnode' hinputs' =>
      refine ⟨?_, fun hovert limit depth => ?_⟩
      · have hsame := congrArg GeneratedText.text (ContentHash.generatedFields_inj hfields).1
        rw [text, text]
        exact hsame
      · have hnone := hovert.inherits_eq_false hnode h.1
        have hnone' := hovert.inherits_eq_false hnode' h'.1
        rw [listed_eq_self hnone] at ih
        rw [listed_eq_self hnone'] at hinputs'
        rw [← hresult]
        exact compositionAt_generated_congr hnone hnone'
          (fun depth x hx y hy hxy => (ih x hx (hinputs' y hy) hxy).2 hovert limit depth) hfields depth
    | _ => cases hkind
  | @joined id children h hchildren ih =>
    obtain ⟨u, hu, hkind, hfields, htext, hresult⟩ :=
      (HashedIn.joined h hchildren).exists_twin hfree (by simp [kind]) ht heq
    rw [← htext]
    cases hu with
    | @joined id' children' _ hchildren' =>
      rw [fields, fields] at hfields
      have hhashes : contentHashAll children = contentHashAll children' := (List.cons.inj hfields).2
      refine ⟨?_, fun hovert limit depth => ?_⟩
      · rw [text, text, textAll_eq_flatten, textAll_eq_flatten]
        exact congrArg List.flatten (map_congr_of_contentHashAll
          (fun s hs t ht heq => (ih s hs (hchildren' t ht) heq).1) hhashes)
      · rw [← hresult, compositionAt, compositionAt, compositionsAt_eq_mapM_id,
          compositionsAt_eq_mapM_id, map_congr_of_contentHashAll
            (fun s hs t ht heq => (ih s hs (hchildren' t ht) heq).2 hovert limit depth) hhashes]
    | _ => cases hkind
  | @edited id base edits h hbase ih =>
    obtain ⟨u, hu, hkind, hfields, htext, hresult⟩ :=
      (HashedIn.edited h hbase).exists_twin hfree (by simp [kind]) ht heq
    rw [← htext]
    cases hu with
    | @edited id' base' edits' _ hbase' =>
      simp only [fields, ContentHash.editedFields, List.cons.injEq, true_and] at hfields
      obtain ⟨hbaseHash, hedits⟩ := hfields
      have hedits := flatMap_inj_of_length (Nat.succ_pos 3) (fun _ => rfl)
        ContentHash.editFields_inj hedits
      obtain ⟨hbaseText, hbaseResult⟩ := ih hbase' hbaseHash
      refine ⟨by rw [text, text, hbaseText, hedits], fun hovert limit depth => ?_⟩
      rw [← hresult, compositionAt, compositionAt, hbaseResult hovert, hedits]
    | _ => cases hkind

end Source

end Provenance
