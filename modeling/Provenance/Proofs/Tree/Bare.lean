/-
# What a content hash tells of any source

The bare form of a source is the source without identities and wrappers, with its listed further sources
in the order of their keys and with each of its own texts read by some function.  Read as they are, the
texts of the bare form decide the results of the source, if nothing in it inherits a further source.
Read with repair, they are what its content hash tells; surrogates that stand alone and further sources
that are inherited make the difference.

The main facts:

* `text_bare`, `compositionAt_bare` : the bare form of a source has its text and its results;
* `contentHash_eq_iff_bare` : without collisions, equal content hashes are those of sources whose
  bare forms, read with repair, are equal;
* `bare_repair` : repair changes no source of well-formed texts;
* `results_eq_of_contentHash_eq` : what equal content hashes tell, and what they leave open;
* `contentHash_lone_surrogate`, `contentHash_inherited` : the two things that they leave open.
-/
import Provenance.Proofs.Digest.Repair

namespace Provenance

/-- A generated text that inherits nothing, with its own texts, apart from those in its map, read by a
function. -/
def GeneratedText.bare (f : Text → Text) (node : GeneratedText) : GeneratedText :=
  { node with
    text := f node.text
    name := f node.name
    sourceText := node.sourceText.map f
    inherits := false }

/-- An edit with its texts read by a function. -/
def Edit.mapTexts (f : Text → Text) (e : Edit) : Edit :=
  { e with content := f e.content, name := e.name.map f }

/-- Further sources in the order of their keys. -/
def Inputs.byKey {α : Type} (inputs : List (Text × α)) : List (Text × α) :=
  List.mergeSort inputs fun a b => Text.le a.1 b.1

namespace Source

mutual

/-- A source without identities and wrappers, with its own texts read by a function, and with its
listed further sources in the order of their keys. -/
def bare (f : Text → Text) : Source → Source
  | plain t => plain (f t)
  | file t name => file (f t) (f name)
  | generated _ node inputs =>
    generated 0 (node.bare f)
      ((Inputs.byKey (node.listed (bareInputs f inputs))).map fun input => (f input.1, input.2))
  | joined _ children => joined 0 (bareAll f children)
  | edited _ base edits => edited 0 (bare f base) (edits.map (Edit.mapTexts f))
  | kept _ child => bare f child

/-- The bare forms of some sources. -/
def bareAll (f : Text → Text) : List Source → List Source
  | [] => []
  | s :: rest => bare f s :: bareAll f rest

/-- The bare forms of further sources, under their keys as they are. -/
def bareInputs (f : Text → Text) : List (Text × Source) → List (Text × Source)
  | [] => []
  | (key, s) :: rest => (key, bare f s) :: bareInputs f rest

end

mutual

/-- A source and all its parts, down to the leaves. -/
def nodes : Source → List Source
  | plain t => [plain t]
  | file t name => [file t name]
  | generated id node inputs => generated id node inputs :: nodesOfInputs inputs
  | joined id children => joined id children :: nodesOfAll children
  | edited id base edits => edited id base edits :: nodes base
  | kept id child => kept id child :: nodes child

/-- Some sources and all their parts. -/
def nodesOfAll : List Source → List Source
  | [] => []
  | s :: rest => nodes s ++ nodesOfAll rest

/-- Further sources and all their parts. -/
def nodesOfInputs : List (Text × Source) → List Source
  | [] => []
  | (_, s) :: rest => nodes s ++ nodesOfInputs rest

end

/-! ## Lists of parts -/

theorem bareAll_eq_map (f : Text → Text) (ss : List Source) : bareAll f ss = ss.map (bare f) := by
  induction ss with
  | nil => rfl
  | cons s rest ih => rw [bareAll, ih, List.map_cons]

theorem bareInputs_eq_map (f : Text → Text) (inputs : List (Text × Source)) :
    bareInputs f inputs = inputs.map fun input => (input.1, bare f input.2) := by
  induction inputs with
  | nil => rfl
  | cons input rest ih => rw [bareInputs, ih, List.map_cons]

theorem nodesOfAll_eq_flatMap (ss : List Source) : nodesOfAll ss = ss.flatMap nodes := by
  induction ss with
  | nil => rfl
  | cons s rest ih => rw [nodesOfAll, ih, List.flatMap_cons]

theorem nodesOfInputs_eq_flatMap (inputs : List (Text × Source)) :
    nodesOfInputs inputs = inputs.flatMap fun input => nodes input.2 := by
  induction inputs with
  | nil => rfl
  | cons input rest ih => rw [nodesOfInputs, ih, List.flatMap_cons]

/-- A source is one of its own nodes. -/
theorem self_mem_nodes (s : Source) : s ∈ s.nodes := by
  cases s <;> simp [nodes]

/-- The nodes of a further source are nodes of the generated text. -/
theorem nodes_subset_of_input {id : NodeId} {node : GeneratedText} {inputs : List (Text × Source)}
    {input : Text × Source} (h : input ∈ inputs) :
    input.2.nodes ⊆ (generated id node inputs).nodes := by
  intro u hu
  rw [nodes, nodesOfInputs_eq_flatMap]
  exact List.mem_cons_of_mem _ (List.mem_flatMap.mpr ⟨input, h, hu⟩)

/-- The nodes of a part are nodes of the joined source. -/
theorem nodes_subset_of_child {id : NodeId} {children : List Source} {s : Source}
    (h : s ∈ children) : s.nodes ⊆ (joined id children).nodes := by
  intro u hu
  rw [nodes, nodesOfAll_eq_flatMap]
  exact List.mem_cons_of_mem _ (List.mem_flatMap.mpr ⟨s, h, hu⟩)

theorem nodes_subset_of_edited (id : NodeId) (base : Source) (edits : List Edit) :
    base.nodes ⊆ (edited id base edits).nodes := fun _ hu => List.mem_cons_of_mem _ hu

theorem nodes_subset_of_kept (id : NodeId) (child : Source) :
    child.nodes ⊆ (kept id child).nodes := fun _ hu => List.mem_cons_of_mem _ hu

theorem contentHashAll_eq_map (ss : List Source) : contentHashAll ss = ss.map contentHash := by
  induction ss with
  | nil => rfl
  | cons s rest ih => rw [contentHashAll, ih, List.map_cons]

/-- Further sources are put in order by their keys alone. -/
theorem byKey_map {α β : Type} (g : α → β) (inputs : List (Text × α)) :
    Inputs.byKey (inputs.map fun input => (input.1, g input.2)) =
      (Inputs.byKey inputs).map fun input => (input.1, g input.2) :=
  (List.map_mergeSort (f := fun input : Text × α => (input.1, g input.2)) fun _ _ _ _ => rfl).symm

/-- Further sources are listed by their keys alone. -/
theorem listed_map {α β : Type} (node : GeneratedText) (g : α → β) (inputs : List (Text × α)) :
    node.listed (inputs.map fun input => (input.1, g input.2)) =
      (node.listed inputs).map fun input => (input.1, g input.2) := by
  unfold GeneratedText.listed
  rw [List.filter_map]
  rfl

/-- The further sources of a bare form. -/
theorem bare_inputs (f : Text → Text) (node : GeneratedText) (inputs : List (Text × Source)) :
    (Inputs.byKey (node.listed (bareInputs f inputs))).map (fun input => (f input.1, input.2)) =
      (Inputs.byKey (node.listed inputs)).map fun input => (f input.1, bare f input.2) := by
  rw [bareInputs_eq_map, listed_map, byKey_map, List.map_map]
  rfl

/-- The fields of further sources that are listed, in the order of their keys. -/
theorem inputFields_inputHashesOf (node : GeneratedText) (inputs : List (Text × Source)) :
    ContentHash.inputFields (inputHashesOf node inputs) =
      (Inputs.byKey (node.listed inputs)).flatMap fun input => [input.1, contentHash input.2] := by
  have hsort := byKey_map contentHash (node.listed inputs)
  rw [Inputs.byKey] at hsort
  rw [ContentHash.inputFields, inputHashesOf_eq_map, hsort, List.flatMap_map]

/-! ## Results of the bare form -/

/-- A generated text that inherits nothing is bare. -/
theorem bare_id {node : GeneratedText} (h : node.inherits = false) : node.bare id = node := by
  rw [GeneratedText.bare, Option.map_id, ← h]
  rfl

theorem map_mapTexts_id (edits : List Edit) : edits.map (Edit.mapTexts id) = edits := by
  have hedit : Edit.mapTexts id = id := by
    funext e
    rw [Edit.mapTexts, Option.map_id]
    rfl
  rw [hedit, List.map_id]

/-- **The bare form of a source has its text.** -/
theorem text_bare (s : Source) : (s.bare id).text = s.text := by
  induction s using partsInduction with
  | plain t => rfl
  | file t name => rfl
  | generated _ node inputs _ =>
    rw [bare, text, text]
    rfl
  | joined _ children ih =>
    rw [bare, text, text]
    induction children with
    | nil => rfl
    | cons s rest ihrest =>
      obtain ⟨hs, hrest⟩ := List.forall_mem_cons.mp ih
      rw [bareAll, textAll, textAll, hs, ihrest hrest]
  | edited _ base edits ih => rw [bare, text, text, ih, map_mapTexts_id]
  | kept _ child ih => rw [bare, text, ih]

/-- Under a key of a bare form stands the bare form of what stands there. -/
theorem lookup_bare_inputs (inputs : List (Text × Source)) (key : Text) :
    ((Inputs.byKey inputs).map fun input => (id input.1, bare id input.2)).lookup key =
      (inputs.lookup key).map (bare id) := by
  rw [Inputs.byKey, ← lookup_mergeSort Text.le_refl Text.le_trans Text.le_total key inputs]
  generalize List.mergeSort inputs (fun a b => Text.le a.1 b.1) = sorted
  induction sorted with
  | nil => rfl
  | cons input rest ih =>
    obtain ⟨k, s⟩ := input
    rw [List.map_cons, List.lookup_cons, List.lookup_cons]
    cases hk : key == k with
    | true => simp only [id, hk, Option.map_some]
    | false => simpa only [id, hk] using ih

/-- A source is no generated text that inherits a further source. -/
def Overt : Source → Prop
  | generated _ node _ => node.inherits = false
  | _ => True

/-- **The bare form of a source has its results**, if nothing in it inherits a further source. -/
theorem compositionAt_bare (limit : Number) (depth : Nat) {s : Source} (h : ∀ u ∈ s.nodes, u.Overt) :
    compositionAt limit depth (s.bare id) = compositionAt limit depth s := by
  induction s using partsInduction generalizing depth with
  | plain t => rfl
  | file t name => rfl
  | generated _ node inputs ih =>
    have hnode : node.inherits = false := h _ (self_mem_nodes _)
    have hlookup := lookup_bare_inputs inputs
    have hkeys : node.keys ((Inputs.byKey inputs).map fun input => (id input.1, bare id input.2)) =
        node.keys inputs := keys_congr node fun key => by rw [hlookup, Option.isSome_map]
    have hinput : ∀ depth key, inputCompositionAt limit depth key
        ((Inputs.byKey inputs).map fun input => (id input.1, bare id input.2)) =
          inputCompositionAt limit depth key inputs := by
      intro depth key
      rw [inputCompositionAt_eq, inputCompositionAt_eq, hlookup]
      cases hfound : inputs.lookup key with
      | none => rfl
      | some u =>
        have hmem := mem_of_lookup hfound
        have hu := ih _ hmem depth fun v hv => h v (nodes_subset_of_input hmem hv)
        rw [Option.map_some]
        dsimp only at hu ⊢
        rw [hu]
    rw [bare, bare_id hnode, bare_inputs, listed_eq_self hnode]
    simp only [compositionAt, hkeys, hinput]
  | joined _ children ih =>
    have hchildren : ∀ s ∈ children,
        compositionAt limit depth (s.bare id) = compositionAt limit depth s := fun s hs =>
      ih s hs depth fun v hv => h v (nodes_subset_of_child hs hv)
    rw [bare, compositionAt, compositionAt, bareAll_eq_map, compositionsAt_eq_mapM_id,
      compositionsAt_eq_mapM_id, List.map_map]
    congr 2
    exact List.map_congr_left hchildren
  | edited _ base edits ih =>
    rw [bare, compositionAt, compositionAt, map_mapTexts_id,
      ih depth fun v hv => h v (nodes_subset_of_edited _ base edits hv)]
  | kept _ child ih =>
    rw [bare, compositionAt_kept, ih depth fun v hv => h v (nodes_subset_of_kept _ child hv)]

/-! ## Repaired fields -/

open ContentHash (CollisionFree markOptional editFields generatedFields)

theorem repair_markOptional (t : Option Text) :
    (markOptional t).repair = markOptional (t.map Text.repair) := by
  cases t with
  | none => rfl
  | some t => exact Text.repair_cons (u := 43) rfl t

theorem repair_ofNat (n : Nat) : (Text.ofNat n).repair = Text.ofNat n :=
  Text.repair_eq_self (Text.wellFormed_of_isAscii (Text.isAscii_ofNat n))

theorem repair_contentHash (s : Source) : Text.repair s.contentHash = s.contentHash :=
  Text.repair_eq_self (wellFormed_contentHash s)

theorem repair_word (kind : SourceKind) : kind.word.repair = kind.word := by
  cases kind <;> rfl

/-- The repaired fields of an edit are those of the edit with repaired texts. -/
theorem map_repair_editFields (e : Edit) :
    (editFields e).map Text.repair = editFields (e.mapTexts Text.repair) := by
  simp only [editFields, List.map_cons, List.map_nil, repair_ofNat, repair_markOptional,
    Edit.mapTexts]

/-- The repaired fields of a generated text are those of the generated text with repaired texts, and
those of its further sources. -/
theorem map_repair_generatedFields (node : GeneratedText) (inputs : List (Text × Source)) :
    (generatedFields node (inputHashesOf node inputs)).map Text.repair =
      generatedFields (node.bare Text.repair) [] ++
        (Inputs.byKey (node.listed inputs)).flatMap fun input =>
          [input.1.repair, contentHash input.2] := by
  have hkind : Text.repair "mapped" = "mapped" := repair_word .generated
  have hflag : Text.repair (if node.withholdText then "remove" else "keep") =
      (if node.withholdText then "remove" else "keep" : Text) := by
    cases node.withholdText <;> rfl
  have hmap : node.map.toText.repair = node.map.toText :=
    Text.repair_eq_self node.map.wellFormed_toText
  have hnil : ContentHash.inputFields [] = [] := by simp [ContentHash.inputFields]
  simp only [generatedFields, inputFields_inputHashesOf, List.map_cons, List.map_flatMap,
    List.map_nil, hkind, hflag, hmap, hnil, repair_markOptional, repair_contentHash,
    GeneratedText.bare, List.cons_append, List.nil_append]
  rfl

/-- Lists of pairs, laid out one behind the other, are equal if and only if both columns are. -/
theorem flatMap_pair_eq_iff {α β γ : Type} {f : α → γ} {g : α → γ} {f' g' : β → γ} {xs : List α}
    {ys : List β} : (xs.flatMap fun x => [f x, g x]) = (ys.flatMap fun y => [f' y, g' y]) ↔
      xs.map f = ys.map f' ∧ xs.map g = ys.map g' := by
  induction xs generalizing ys with
  | nil => cases ys <;> simp
  | cons x xs ih =>
    cases ys with
    | nil => simp
    | cons y ys =>
      simp only [List.flatMap_cons, List.cons_append, List.nil_append, List.cons.injEq, List.map_cons,
        ih]
      tauto

/-- Lists of pairs are equal if and only if both columns are. -/
theorem map_pair_eq_iff {α β γ δ : Type} {f : α → γ} {g : α → δ} {f' : β → γ} {g' : β → δ}
    {xs : List α} {ys : List β} : (xs.map fun x => (f x, g x)) = (ys.map fun y => (f' y, g' y)) ↔
      xs.map f = ys.map f' ∧ xs.map g = ys.map g' := by
  induction xs generalizing ys with
  | nil => cases ys <;> simp
  | cons x xs ih =>
    cases ys with
    | nil => simp
    | cons y ys =>
      simp only [List.map_cons, List.cons.injEq, Prod.mk.injEq, ih]
      tauto

/-- Two lists are equal under one reading if and only if they are under another, provided that any two
of their members are. -/
theorem map_eq_map_iff_of_forall {α β γ δ : Type} {f : α → γ} {f' : β → γ} {g : α → δ} {g' : β → δ}
    {xs : List α} {ys : List β} (h : ∀ x ∈ xs, ∀ y ∈ ys, f x = f' y ↔ g x = g' y) :
    xs.map f = ys.map f' ↔ xs.map g = ys.map g' := by
  induction xs generalizing ys with
  | nil => cases ys <;> simp
  | cons x xs ih =>
    cases ys with
    | nil => simp
    | cons y ys =>
      have hrest := ih fun x hx y hy =>
        h x (List.mem_cons_of_mem _ hx) y (List.mem_cons_of_mem _ hy)
      simp only [List.map_cons, List.cons.injEq, hrest,
        h x List.mem_cons_self y List.mem_cons_self]

/-! ## Equal content hashes -/

/-- What is remembered is put aside: below all wrappers there is a source of another kind that has the
same content hash and the same bare form. -/
theorem exists_unwrapped (t : Source) : ∃ u : Source, u.kind ≠ .kept ∧ u.nodes ⊆ t.nodes ∧
    u.contentHash = t.contentHash ∧ ∀ f, u.bare f = t.bare f := by
  induction t using partsInduction with
  | kept _ child ih =>
    obtain ⟨u, hkind, hnodes, hhash, hbare⟩ := ih
    refine ⟨u, hkind, List.Subset.trans hnodes (nodes_subset_of_kept _ child),
      by rw [hhash, contentHash_kept], fun f => ?_⟩
    rw [hbare, bare]
  | _ => exact ⟨_, by simp [kind], List.Subset.refl _, rfl, fun _ => rfl⟩

theorem kind_bare {s : Source} (h : s.kind ≠ .kept) (f : Text → Text) : (s.bare f).kind = s.kind := by
  cases s with
  | kept _ child => exact absurd rfl h
  | _ => rfl

/-- Repaired fields tell the kind of a source. -/
theorem kind_eq_of_map_repair_eq {s t : Source} (hs : s.kind ≠ .kept) (ht : t.kind ≠ .kept)
    (h : s.fields.map Text.repair = t.fields.map Text.repair) : s.kind = t.kind := by
  have hword := congrArg List.head? h
  rw [List.head?_map, List.head?_map, head?_fields hs, head?_fields ht, Option.map_some,
    Option.map_some, repair_word, repair_word] at hword
  have hword := Option.some.inj hword
  revert hword
  generalize s.kind = a
  generalize t.kind = b
  cases a <;> cases b <;> decide

/-- Generated texts have equal repaired fields if and only if they are equal, read with repair, and
have equal keys and content hashes of further sources. -/
theorem map_repair_generatedFields_eq_iff {node node' : GeneratedText}
    {inputs inputs' : List (Text × Source)} :
    (generatedFields node (inputHashesOf node inputs)).map Text.repair =
        (generatedFields node' (inputHashesOf node' inputs')).map Text.repair ↔
      node.bare Text.repair = node'.bare Text.repair ∧
        (Inputs.byKey (node.listed inputs)).map (fun input => input.1.repair) =
          (Inputs.byKey (node'.listed inputs')).map (fun input => input.1.repair) ∧
        (Inputs.byKey (node.listed inputs)).map (fun input => contentHash input.2) =
          (Inputs.byKey (node'.listed inputs')).map fun input => contentHash input.2 := by
  rw [map_repair_generatedFields, map_repair_generatedFields, ← flatMap_pair_eq_iff]
  constructor
  · intro h
    obtain ⟨hnode, hinputs⟩ := List.append_inj h rfl
    exact ⟨(ContentHash.generatedFields_inj hnode).1, hinputs⟩
  · rintro ⟨hnode, hinputs⟩
    rw [hnode, hinputs]

/-- Edits have equal repaired fields if and only if they are equal, read with repair. -/
theorem map_repair_edits_eq_iff {edits edits' : List Edit} :
    (edits.flatMap editFields).map Text.repair = (edits'.flatMap editFields).map Text.repair ↔
      edits.map (Edit.mapTexts Text.repair) = edits'.map (Edit.mapTexts Text.repair) := by
  have hfields : ∀ edits : List Edit, (edits.flatMap editFields).map Text.repair =
      (edits.map (Edit.mapTexts Text.repair)).flatMap editFields := by
    intro edits
    simp only [List.map_flatMap, List.flatMap_map, map_repair_editFields]
  rw [hfields, hfields]
  exact ⟨flatMap_inj_of_length (Nat.succ_pos 3) (fun _ => rfl) ContentHash.editFields_inj,
    congrArg (List.flatMap editFields)⟩

variable {hashed : List (List Text)}

/-- A source that is no wrapper is compared with those of its kind only. -/
theorem contentHash_eq_iff_of_sameKind (hfree : CollisionFree hashed) {s t : Source}
    (hs : s.fields ∈ hashed) (hkind : s.kind ≠ .kept) (ht : ∀ u ∈ t.nodes, u.fields ∈ hashed)
    (h : ∀ u : Source, u.kind = s.kind → (∀ v ∈ u.nodes, v.fields ∈ hashed) →
      (s.fields.map Text.repair = u.fields.map Text.repair ↔
        s.bare Text.repair = u.bare Text.repair)) :
    s.contentHash = t.contentHash ↔ s.bare Text.repair = t.bare Text.repair := by
  obtain ⟨u, hukind, hnodes, hhash, hbare⟩ := exists_unwrapped t
  have hu : ∀ v ∈ u.nodes, v.fields ∈ hashed := fun v hv => ht v (hnodes hv)
  rw [← hhash, ← hbare, contentHash_eq, contentHash_eq,
    hfree.ofFields_eq_iff hs (hu u (self_mem_nodes u))]
  by_cases hsame : u.kind = s.kind
  · exact h u hsame hu
  · refine iff_of_false (fun heq => ?_) fun heq => ?_
    · exact hsame (kind_eq_of_map_repair_eq hkind hukind heq).symm
    · have hkinds := congrArg kind heq
      rw [kind_bare hkind, kind_bare hukind] at hkinds
      exact hsame hkinds.symm

/-- Generated texts have equal repaired fields if and only if their bare forms, read with repair, are
equal, provided that this is so of the content hashes of their further sources. -/
theorem map_repair_fields_generated_iff {id id' : NodeId} {node node' : GeneratedText}
    {inputs inputs' : List (Text × Source)}
    (h : ∀ x ∈ inputs, ∀ y ∈ inputs', x.2.contentHash = y.2.contentHash ↔
      x.2.bare Text.repair = y.2.bare Text.repair) :
    (generated id node inputs).fields.map Text.repair =
        (generated id' node' inputs').fields.map Text.repair ↔
      (generated id node inputs).bare Text.repair = (generated id' node' inputs').bare Text.repair := by
  have hinputs : (Inputs.byKey (node.listed inputs)).map (fun input => contentHash input.2) =
      (Inputs.byKey (node'.listed inputs')).map (fun input => contentHash input.2) ↔
      (Inputs.byKey (node.listed inputs)).map (fun input => bare Text.repair input.2) =
        (Inputs.byKey (node'.listed inputs')).map fun input => bare Text.repair input.2 :=
    map_eq_map_iff_of_forall fun x hx y hy =>
      h x (List.mem_filter.mp (List.mem_mergeSort.mp hx)).1
        y (List.mem_filter.mp (List.mem_mergeSort.mp hy)).1
  rw [fields, fields, map_repair_generatedFields_eq_iff, hinputs, bare, bare, bare_inputs,
    bare_inputs, generated.injEq, map_pair_eq_iff]
  simp only [true_and]

/-- Joined sources have equal repaired fields if and only if their bare forms, read with repair, are
equal, provided that this is so of the content hashes of their children. -/
theorem map_repair_fields_joined_iff {id id' : NodeId} {children children' : List Source}
    (h : ∀ x ∈ children, ∀ y ∈ children', x.contentHash = y.contentHash ↔
      x.bare Text.repair = y.bare Text.repair) :
    (joined id children).fields.map Text.repair = (joined id' children').fields.map Text.repair ↔
      (joined id children).bare Text.repair = (joined id' children').bare Text.repair := by
  have hchildren : children.map contentHash = children'.map contentHash ↔
      children.map (bare Text.repair) = children'.map (bare Text.repair) :=
    map_eq_map_iff_of_forall h
  have hrepair : ∀ ss : List Source, (ss.map contentHash).map Text.repair =
      ss.map contentHash := fun ss => by
    simp only [List.map_map, Function.comp_def, repair_contentHash]
  simp only [fields, ContentHash.joinedFields, contentHashAll_eq_map, List.map_cons, hrepair,
    List.cons.injEq, true_and, hchildren, bare, bareAll_eq_map, joined.injEq]

/-- **Without collisions, sources have one content hash if and only if their bare forms, read with
repair, are equal.** -/
theorem contentHash_eq_iff_bare (hfree : CollisionFree hashed) {s t : Source}
    (hs : ∀ u ∈ s.nodes, u.fields ∈ hashed) (ht : ∀ u ∈ t.nodes, u.fields ∈ hashed) :
    s.contentHash = t.contentHash ↔ s.bare Text.repair = t.bare Text.repair := by
  -- by induction on the first source; the other may be wrapped, so what it wraps is taken
  induction s using partsInduction generalizing t with
  | kept _ child ih =>
    rw [contentHash_kept, bare]
    exact ih (fun u hu => hs u (nodes_subset_of_kept _ child hu)) ht
  | plain a =>
    have hself := hs _ (self_mem_nodes (.plain a))
    refine contentHash_eq_iff_of_sameKind hfree hself (by simp [kind]) ht fun u hkind _ => ?_
    cases u with
    | plain b => simp [fields, ContentHash.plainFields, bare]
    | _ => cases hkind
  | file a name =>
    have hself := hs _ (self_mem_nodes (.file a name))
    refine contentHash_eq_iff_of_sameKind hfree hself (by simp [kind]) ht fun u hkind _ => ?_
    cases u with
    | file b name' => simp [fields, ContentHash.fileFields, bare, and_comm]
    | _ => cases hkind
  | generated id node inputs ih =>
    have hself := hs _ (self_mem_nodes (.generated id node inputs))
    refine contentHash_eq_iff_of_sameKind hfree hself (by simp [kind]) ht fun u hkind hu => ?_
    cases u with
    | generated _ node' inputs' =>
      refine map_repair_fields_generated_iff fun x hx y hy => ?_
      exact ih x hx (fun v hv => hs v (nodes_subset_of_input hx hv)) fun v hv =>
        hu v (nodes_subset_of_input hy hv)
    | _ => cases hkind
  | joined id children ih =>
    have hself := hs _ (self_mem_nodes (.joined id children))
    refine contentHash_eq_iff_of_sameKind hfree hself (by simp [kind]) ht fun u hkind hu => ?_
    cases u with
    | joined _ children' =>
      refine map_repair_fields_joined_iff fun x hx y hy => ?_
      exact ih x hx (fun v hv => hs v (nodes_subset_of_child hx hv)) fun v hv =>
        hu v (nodes_subset_of_child hy hv)
    | _ => cases hkind
  | edited id base edits ih =>
    have hself := hs _ (self_mem_nodes (.edited id base edits))
    refine contentHash_eq_iff_of_sameKind hfree hself (by simp [kind]) ht fun u hkind hu => ?_
    cases u with
    | edited _ base' edits' =>
      have hbase : ∀ v ∈ base.nodes, v.fields ∈ hashed := fun v hv =>
        hs v (nodes_subset_of_edited _ base edits hv)
      have hbase' : ∀ v ∈ base'.nodes, v.fields ∈ hashed := fun v hv =>
        hu v (nodes_subset_of_edited _ base' edits' hv)
      simp only [fields, ContentHash.editedFields, List.map_cons, repair_contentHash,
        List.cons.injEq, true_and, map_repair_edits_eq_iff, bare, edited.injEq,
        ih hbase hbase']
    | _ => cases hkind

/-! ## Well-formed sources -/

/-- Repair changes no text of a well-formed edit. -/
theorem mapTexts_repair_edit {e : Edit} (h : e.Formed) : e.mapTexts Text.repair = e.mapTexts id := by
  have hname : e.name.map Text.repair = e.name.map id :=
    Option.map_congr fun t ht => Text.repair_eq_self (h.2 t ht)
  rw [Edit.mapTexts, Edit.mapTexts, Text.repair_eq_self h.1, hname]
  rfl

/-- Repair changes no text of a well-formed generated text. -/
theorem bare_repair_node {node : GeneratedText} (h : node.Formed) :
    node.bare Text.repair = node.bare id := by
  have hsource : node.sourceText.map Text.repair = node.sourceText.map id :=
    Option.map_congr fun t ht => Text.repair_eq_self (h.sourceText t ht)
  rw [GeneratedText.bare, GeneratedText.bare, Text.repair_eq_self h.text,
    Text.repair_eq_self h.name, hsource]
  rfl

/-- **Repair changes no source of well-formed texts.** -/
theorem bare_repair {s : Source} (h : ∀ u ∈ s.nodes, u.Formed) : s.bare Text.repair = s.bare id := by
  have hself := h s (self_mem_nodes s)
  induction s using partsInduction with
  | plain t => rw [bare, bare, Text.repair_eq_self hself]; rfl
  | file t name => rw [bare, bare, Text.repair_eq_self hself.1, Text.repair_eq_self hself.2]; rfl
  | generated _ node inputs ih =>
    obtain ⟨hnode, hkeys⟩ := hself
    rw [bare, bare, bare_repair_node hnode, bare_inputs, bare_inputs]
    congr 1
    refine List.map_congr_left fun input hmem => ?_
    have hmem := (List.mem_filter.mp (List.mem_mergeSort.mp hmem)).1
    have hinput : ∀ u ∈ input.2.nodes, u.Formed := fun u hu => h u (nodes_subset_of_input hmem hu)
    rw [Text.repair_eq_self (hkeys input hmem), ih input hmem hinput (hinput _ (self_mem_nodes _))]
    rfl
  | joined _ children ih =>
    rw [bare, bare, bareAll_eq_map, bareAll_eq_map]
    congr 1
    refine List.map_congr_left fun child hmem => ?_
    have hchild : ∀ u ∈ child.nodes, u.Formed := fun u hu => h u (nodes_subset_of_child hmem hu)
    exact ih child hmem hchild (hchild _ (self_mem_nodes _))
  | edited _ base edits ih =>
    have hbase : ∀ u ∈ base.nodes, u.Formed := fun u hu =>
      h u (nodes_subset_of_edited _ base edits hu)
    rw [bare, bare, ih hbase (hbase _ (self_mem_nodes _)),
      List.map_congr_left fun e he => mapTexts_repair_edit (hself e he)]
  | kept _ child ih =>
    have hchild : ∀ u ∈ child.nodes, u.Formed := fun u hu => h u (nodes_subset_of_kept _ child hu)
    rw [bare, bare, ih hchild (hchild _ (self_mem_nodes _))]

/-- Sources with one bare form have one text, and one result under every limit if nothing in them
inherits a further source. -/
theorem equal_of_bare_eq {s t : Source} (h : s.bare id = t.bare id) :
    s.text = t.text ∧ ((∀ u ∈ s.nodes ++ t.nodes, u.Overt) →
      ∀ limit, s.compose limit = t.compose limit) := by
  constructor
  · rw [← text_bare s, h, text_bare]
  · intro hovert limit
    obtain ⟨hs, ht⟩ := List.forall_mem_append.mp hovert
    rw [compose, compose, ← compositionAt_bare limit 0 hs, h, compositionAt_bare limit 0 ht]

/-- **What equal content hashes tell.**  Without collisions among the fields of two sources, their
content hashes are equal if and only if the sources are the same but for wrappers, for identities, for
the order of further sources, for those that are inherited and for surrogates that stand alone.  Only
the last two can make a difference: sources that agree in their surrogates as well, and in particular
sources without any, have one text, and one result under every limit if nothing in them inherits a
further source. -/
theorem results_eq_of_contentHash_eq (s t : Source)
    (hfree : CollisionFree ((s.nodes ++ t.nodes).map fields)) :
    (s.contentHash = t.contentHash ↔ s.bare Text.repair = t.bare Text.repair) ∧
    (s.bare id = t.bare id ∨
        (s.contentHash = t.contentHash ∧ ∀ u ∈ s.nodes ++ t.nodes, u.Formed) →
      s.text = t.text ∧ ((∀ u ∈ s.nodes ++ t.nodes, u.Overt) →
        ∀ limit, s.compose limit = t.compose limit)) := by
  have hiff : s.contentHash = t.contentHash ↔ s.bare Text.repair = t.bare Text.repair :=
    contentHash_eq_iff_bare hfree
      (fun u hu => List.mem_map_of_mem (List.mem_append_left _ hu))
      fun u hu => List.mem_map_of_mem (List.mem_append_right _ hu)
  refine ⟨hiff, ?_⟩
  rintro (hbare | ⟨heq, hformed⟩)
  · exact equal_of_bare_eq hbare
  · have hs := bare_repair fun u hu => hformed u (List.mem_append_left _ hu)
    have ht := bare_repair fun u hu => hformed u (List.mem_append_right _ hu)
    exact equal_of_bare_eq (hs.symm.trans ((hiff.mp heq).trans ht))

/-- A surrogate that stands alone has the content hash of the replacement character, and neither its
text nor its result. -/
theorem contentHash_lone_surrogate :
    let s : Source := .plain [0xD800]
    let t : Source := .plain [CodeUnit.replacement]
    CollisionFree ((s.nodes ++ t.nodes).map fields) ∧ s.contentHash = t.contentHash ∧
      s.text ≠ t.text ∧ ∀ limit, s.compose limit ≠ t.compose limit := by
  intro s t
  have hstream : ContentHash.stream s.fields = ContentHash.stream t.fields :=
    ContentHash.stream_eq_iff.mpr rfl
  have hfree : CollisionFree ((s.nodes ++ t.nodes).map fields) := by
    have hall : ∀ fs ∈ (s.nodes ++ t.nodes).map fields,
        ContentHash.stream fs = ContentHash.stream t.fields := by
      intro fs hfs
      rcases List.mem_cons.mp hfs with rfl | hfs
      · exact hstream
      · rw [List.mem_singleton.mp hfs]
    exact fun fs hfs gs hgs _ => (hall fs hfs).trans (hall gs hgs).symm
  refine ⟨hfree, (results_eq_of_contentHash_eq s t hfree).1.mpr rfl, by decide, fun limit h => ?_⟩
  have htext := congrArg Composition.text (Except.ok.inj h)
  exact absurd htext (by decide)

/-- Generated texts that inherit different further sources have one content hash, and different
results. -/
theorem contentHash_inherited :
    let inner (name : Text) : Source := .generated 0
      { text := "o", name := "__proto__", map := ⟨[name], none, [], "AAAA", none, none⟩ } []
    let outer (name : Text) : Source := .generated 1
      { text := "a", name := "__proto__", map := ⟨["__proto__"], none, [], "AAAA", none, none⟩,
        sourceText := some "o", inherits := true } [("__proto__", inner name)]
    (outer "p.js").contentHash = (outer "q.js").contentHash ∧
      (outer "p.js").compose (32 : Nat) ≠ (outer "q.js").compose (32 : Nat) := by
  intro inner outer
  constructor
  · rw [contentHash_eq, contentHash_eq]
    exact congrArg _ (by decide +kernel)
  · intro h
    have hnames := congrArg (fun r => r.toOption.map fun c => c.sources.names) h
    exact absurd hnames (by decide +kernel)

end Source

end Provenance
