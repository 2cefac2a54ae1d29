/-
# Origins of offsets

What an offset of a composed result comes from, in words: the source, the original line and column,
and the name.  A table whose entries stand at offsets of a text is read as a list of marks, and the
origin of an offset is decided by the last mark on its line.

The main facts:

* `describeIn_of_extends` : larger tables describe a location in the same words;
* `trace_marksOf` : an offset comes from where the last mark on its line says;
* `originAtOffset_eq_trace` : the origins of a proper result, by its marks;
* `proper_of_normalForm` : a normal form of entries in the text makes a proper result;
* `counted_originAt` : the lines and columns of origins are counts.
-/
import Provenance.Composition.Edit
import Provenance.Proofs.Mapping.Normal
import Provenance.Proofs.Number.Counts
import Provenance.Proofs.Table
import Provenance.Proofs.Text.Position
import Provenance.SourceMap.Basic

namespace Provenance

/-! ## Origins in words -/

namespace OriginPosition

/-- The origin, moved along its line by a distance.  A name stands only at its start. -/
def advance (o : OriginPosition) (distance : Nat) : OriginPosition :=
  { o with
    column := o.column + (distance : Number).rounded
    name := if distance = 0 then o.name else none }

/-- The line and the column of an origin are counts. -/
structure Counted (o : OriginPosition) : Prop where
  line : o.line.Count
  column : o.column.Count

/-- The origin, with its column capped at 2^53. -/
def capped (o : OriginPosition) : OriginPosition := { o with column := o.column.capped }

variable {o o' : OriginPosition}

theorem capped_inj : o.capped = o'.capped ↔
    o.source = o'.source ∧ o.line = o'.line ∧ o.column.capped = o'.column.capped ∧
      o.name = o'.name := mk.injEq .. ▸ Iff.rfl

theorem Counted.advance (h : o.Counted) (distance : Nat) : (o.advance distance).Counted :=
  ⟨h.line, h.column.add (Number.Count.rounded_natCast distance)⟩

/-- Distances add up below 2^53, and only the start has a name. -/
theorem Counted.capped_advance_advance (h : o.Counted) (a b : Nat) :
    ((o.advance a).advance b).capped = (o.advance (a + b)).capped := by
  refine capped_inj.mpr ⟨rfl, rfl, h.column.capped_add_add a b, ?_⟩
  show (if b = 0 then if a = 0 then o.name else none else none) = if a + b = 0 then o.name else none
  by_cases hb : b = 0
  · simp [hb]
  · simp [hb]

end OriginPosition

namespace Location

/-- A location in words, with source and name looked up in tables. -/
def describeIn (sources names : TextTable) (o : Location) : OriginPosition :=
  ⟨sources.get? o.source, o.line, o.column, o.name.bind names.get?⟩

/-- The source and the name of a location are in tables. -/
structure KnownIn (sources names : TextTable) (o : Location) : Prop where
  source : (sources.get? o.source).isSome
  name : ∀ n ∈ o.name, (names.get? n).isSome

variable {sources names : TextTable}

theorem describeIn_advance (o : Location) (distance : Nat) :
    (o.advance (distance : Number).rounded).describeIn sources names =
      (o.describeIn sources names).advance distance := by
  have hzero : ((distance : Number).rounded = 0) ↔ distance = 0 := by
    rw [← Number.intCast_natCast, Number.ofNat_eq_natCast, Number.rounded_intCast_eq_zero]
    omega
  simp only [describeIn, advance, OriginPosition.advance, hzero]
  split <;> rfl

/-- Larger tables describe a location in the same words. -/
theorem describeIn_of_extends {sources' names' : TextTable} {o : Location}
    (h : o.KnownIn sources names) (hs : sources'.Extends sources) (hn : names'.Extends names) :
    o.describeIn sources' names' = o.describeIn sources names := by
  unfold describeIn
  obtain ⟨s, hsource⟩ := Option.isSome_iff_exists.mp h.source
  rw [TextTable.get?_of_extends hs hsource, hsource]
  cases ho : o.name with
  | none => rfl
  | some n =>
    obtain ⟨t, hname⟩ := Option.isSome_iff_exists.mp (h.name n ho)
    rw [Option.bind_some, Option.bind_some, TextTable.get?_of_extends hn hname, hname]

theorem KnownIn.of_extends {sources' names' : TextTable} {o : Location}
    (h : o.KnownIn sources names) (hs : sources'.Extends sources) (hn : names'.Extends names) :
    o.KnownIn sources' names' := by
  obtain ⟨s, hsource⟩ := Option.isSome_iff_exists.mp h.source
  refine ⟨Option.isSome_iff_exists.mpr ⟨s, TextTable.get?_of_extends hs hsource⟩, fun n ho => ?_⟩
  obtain ⟨t, hname⟩ := Option.isSome_iff_exists.mp (h.name n ho)
  exact Option.isSome_iff_exists.mpr ⟨t, TextTable.get?_of_extends hn hname⟩

end Location

namespace Composition

/-- A location of a result in words. -/
def describe (c : Composition) : Location → OriginPosition :=
  Location.describeIn c.sources.names c.names

/-- The origin of a position of a result's text. -/
def originAt (c : Composition) (line column : Number) : Option OriginPosition :=
  (c.mappings.trace? line column).map c.describe

/-- The origin of an offset of a result's text. -/
def originAtOffset (c : Composition) (offset : Nat) : Option OriginPosition :=
  let p := c.text.positionOf offset
  c.originAt (p.line : Number) (p.column : Number)

end Composition

/-! ## Marks -/

/-- From an offset on, up to the next mark or the end of the line, a text comes from an origin, or
from nowhere. -/
structure Mark where
  offset : Nat
  origin : Option OriginPosition

namespace Mark

/-- A mark of a text that is put behind another. -/
def move (distance : Nat) (m : Mark) : Mark := { m with offset := distance + m.offset }

/-- The mark that an offset falls to: the last one put among those with the greatest offset at or
before it on its line. -/
def governing? (t : Text) (marks : List Mark) (offset : Nat) : Option Mark :=
  latest (fun m => t.onLine m.offset offset) Mark.offset marks

/-- The origin that a mark gives to an offset that falls to it. -/
def originOf (m : Mark) (offset : Nat) : Option OriginPosition :=
  m.origin.map (OriginPosition.advance · (offset - m.offset))

/-- The origin of an offset of a text with marks. -/
def trace (t : Text) (marks : List Mark) (offset : Nat) : Option OriginPosition :=
  (governing? t marks offset).bind (Mark.originOf · offset)

/-! ### Parts of texts -/

/-- Marks that stand behind an offset do not count. -/
theorem governing?_of_lt {t : Text} {marks : List Mark} {offset : Nat}
    (h : ∀ m ∈ marks, offset < m.offset) : governing? t marks offset = none :=
  latest_eq_none fun m hm => Text.onLine_eq_false_of_lt (h m hm)

/-- A text's own marks count in a text that it is part of as they do in it. -/
theorem governing?_append_right {before t after : Text} {p : Nat} (hp : p ≤ t.length)
    (marks : List Mark) :
    governing? (before ++ t ++ after) (marks.map (move before.length))
        (before.length + p) =
      (governing? t marks p).map (move before.length) := by
  unfold governing?
  rw [latest_map]
  refine congrArg _ (latest_congr (fun m _ => Text.onLine_append hp) fun a _ b _ _ _ => ?_)
  simp only [move]
  omega

/-- The marks before a part count on its first line as they do at their end. -/
theorem governing?_append_left {before t after : Text} {p : Nat} (hp : p ≤ t.length)
    {marks : List Mark} (hmarks : ∀ m ∈ marks, m.offset ≤ before.length) :
    governing? (before ++ t ++ after) marks (before.length + p) =
      if t.onLine 0 p then governing? before marks before.length else none := by
  split
  · rename_i hline
    refine latest_congr (fun m hm => ?_) fun a _ b _ _ _ => Iff.rfl
    rw [Text.onLine_append_left (hmarks m hm) hp, hline, Bool.and_true]
  · rename_i hline
    apply latest_eq_none
    intro m hm
    rw [Text.onLine_append_left (hmarks m hm) hp, Bool.eq_false_iff.mpr hline, Bool.and_false]

/-- The lines and columns of the origins of marks are counts. -/
def Counted (marks : List Mark) : Prop := ∀ m ∈ marks, ∀ o ∈ m.origin, o.Counted

/-- The origin that a mark gives to an offset has counts if its own origin has. -/
theorem counted_originOf {m : Mark} (h : ∀ o ∈ m.origin, o.Counted) (offset : Nat) :
    ∀ o ∈ m.originOf offset, o.Counted := by
  intro o ho
  obtain ⟨own, hown, rfl⟩ := Option.map_eq_some_iff.mp ho
  exact (h own hown).advance _

theorem Counted.trace {t : Text} {marks : List Mark} (h : Counted marks) (offset : Nat) :
    ∀ o ∈ Mark.trace t marks offset, o.Counted := by
  intro o ho
  obtain ⟨m, hm, ho⟩ := Option.bind_eq_some_iff.mp ho
  exact counted_originOf (h m (mem_of_latest hm).1) offset o ho

/-- Along a line the origin that a mark gives moves on. -/
theorem originOf_add {m : Mark} (h : ∀ o ∈ m.origin, o.Counted) {offset : Nat}
    (hle : m.offset ≤ offset) (distance : Nat) :
    (m.originOf (offset + distance)).map OriginPosition.capped =
      ((m.originOf offset).map (OriginPosition.advance · distance)).map OriginPosition.capped := by
  have hdistance : offset + distance - m.offset = offset - m.offset + distance := by omega
  unfold originOf
  cases ho : m.origin with
  | none => rfl
  | some o =>
    simp only [Option.map_some, hdistance]
    rw [(h o ho).capped_advance_advance]

end Mark

/-! ## Entries at offsets -/

namespace Mapping

/-- The entry stands at an offset of a text. -/
def InText (t : Text) (m : Mapping) : Prop :=
  ∃ offset, offset ≤ t.length ∧ m = Composition.entryAt t offset m.origin

/-- The offset of an entry in a text. -/
def offsetIn (t : Text) (m : Mapping) : Nat := (Composition.entryOffset? t m).getD 0

/-- An entry of a text as a mark. -/
def markIn (t : Text) (describe : Location → OriginPosition) (m : Mapping) : Mark :=
  ⟨m.offsetIn t, m.origin.map describe⟩

variable {t : Text} {m : Mapping}

theorem entryOffset?_entryAt {offset : Nat} (h : offset ≤ t.length) (origin : Option Location) :
    Composition.entryOffset? t (Composition.entryAt t offset origin) = some offset := by
  simp [Composition.entryOffset?, Composition.entryAt, Text.offsetOf?_positionOf h]

theorem inText_entryAt {offset : Nat} (h : offset ≤ t.length) (origin : Option Location) :
    (Composition.entryAt t offset origin).InText t := ⟨offset, h, rfl⟩

@[simp] theorem markIn_entryAt {offset : Nat} (h : offset ≤ t.length) (origin : Option Location)
    (describe : Location → OriginPosition) :
    (Composition.entryAt t offset origin).markIn t describe = ⟨offset, origin.map describe⟩ := by
  rw [markIn, offsetIn, entryOffset?_entryAt h]
  rfl

theorem InText.placed (h : m.InText t) : m.Placed := by
  obtain ⟨offset, -, hm⟩ := h
  rw [hm]
  exact placed_mk _ _ _

theorem InText.offsetIn_le (h : m.InText t) : m.offsetIn t ≤ t.length := by
  obtain ⟨offset, hle, hm⟩ := h
  rw [offsetIn, hm, entryOffset?_entryAt hle]
  exact hle

/-- An entry is the one at its offset. -/
theorem InText.eq_entryAt (h : m.InText t) :
    m = Composition.entryAt t (m.offsetIn t) m.origin := by
  obtain ⟨offset, hle, hm⟩ := h
  have hoffset : m.offsetIn t = offset := by
    rw [offsetIn, hm, entryOffset?_entryAt hle]
    rfl
  rw [hoffset]
  exact hm

theorem InText.place_eq (h : m.InText t) : m.place = t.positionOf (m.offsetIn t) := by
  conv_lhs => rw [h.eq_entryAt]
  exact place_mk _ _ _

end Mapping

/-- The mark that an offset falls to is the entry that covers its position. -/
theorem MappingTable.governing?_marksOf {t : Text} {table : MappingTable}
    (h : ∀ m ∈ table, m.InText t) (describe : Location → OriginPosition) {offset : Nat}
    (hoffset : offset ≤ t.length) :
    Mark.governing? t (table.map (Mapping.markIn t describe)) offset =
      (table.cover? (t.positionOf offset)).map (Mapping.markIn t describe) := by
  have hcover : table.cover? (t.positionOf offset) =
      latest (fun m => t.onLine (m.offsetIn t) offset) (fun m => m.offsetIn t) table := by
    refine latest_congr (fun m hm => ?_) fun a ha b hb hca hcb => ?_
    · rw [(h m hm).place_eq, Text.covers_positionOf (h m hm).offsetIn_le hoffset]
    · -- on one line columns and offsets grow together
      rw [(h a ha).place_eq, Text.covers_positionOf (h a ha).offsetIn_le hoffset] at hca
      rw [(h b hb).place_eq, Text.covers_positionOf (h b hb).offsetIn_le hoffset] at hcb
      have hqa := congrArg Text.Position.column (Text.positionOf_of_onLine hca hoffset)
      have hqb := congrArg Text.Position.column (Text.positionOf_of_onLine hcb hoffset)
      have := (Text.onLine_iff.mp hca).1
      have := (Text.onLine_iff.mp hcb).1
      rw [(h a ha).place_eq, (h b hb).place_eq]
      simp only at hqa hqb
      omega
  rw [hcover]
  exact latest_map _ table

/-- A column behind an offset comes from where the last mark on the line says, if no entry stands
between. -/
theorem MappingTable.trace_marksOf_add {t : Text} {table : MappingTable}
    (h : ∀ m ∈ table, m.InText t) (sources names : TextTable) {offset : Nat}
    (hoffset : offset ≤ t.length) (distance : Nat)
    (hbetween : ∀ m ∈ table, m.place.line = (t.positionOf offset).line →
      m.place.column ≤ (t.positionOf offset).column + distance →
        m.place.column ≤ (t.positionOf offset).column) :
    (table.origin? ⟨(t.positionOf offset).line, (t.positionOf offset).column + distance⟩).map
        (Location.describeIn sources names) =
      (Mark.governing? t (table.map (Mapping.markIn t (Location.describeIn sources names)))
        offset).bind (Mark.originOf · (offset + distance)) := by
  have hcover : table.cover? ⟨(t.positionOf offset).line, (t.positionOf offset).column + distance⟩ =
      table.cover? (t.positionOf offset) := by
    refine latest_congr (fun m hm => ?_) fun _ _ _ _ _ _ => Iff.rfl
    have hbetween := hbetween m hm
    rw [Bool.eq_iff_iff, Text.Position.covers_iff, Text.Position.covers_iff]
    exact ⟨fun hc => ⟨hc.1, hbetween hc.1 hc.2⟩, fun hc => ⟨hc.1, Nat.le_add_right_of_le hc.2⟩⟩
  unfold MappingTable.origin?
  rw [governing?_marksOf h _ hoffset, hcover]
  cases hm : table.cover? (t.positionOf offset) with
  | none => rfl
  | some m =>
    obtain ⟨hmem, hc⟩ := mem_of_latest hm
    have hon : t.onLine (m.offsetIn t) offset = true := by
      rwa [(h m hmem).place_eq, Text.covers_positionOf (h m hmem).offsetIn_le hoffset] at hc
    have hcolumn := congrArg Text.Position.column (Text.positionOf_of_onLine hon hoffset)
    have hle := (Text.onLine_iff.mp hon).1
    have hdistance : (t.positionOf offset).column + distance - m.place.column =
        offset + distance - m.offsetIn t := by
      rw [hcolumn, (h m hmem).place_eq]
      simp only
      omega
    simp only [Option.bind_some, Option.map_some, Mark.originOf, Mapping.markIn, hdistance,
      Option.map_map]
    cases m.origin with
    | none => rfl
    | some o => simp [Location.describeIn_advance]

/-- An offset comes from where the last mark on its line says. -/
theorem MappingTable.trace_marksOf {t : Text} {table : MappingTable}
    (h : ∀ m ∈ table, m.InText t) {sources names : TextTable} {offset : Nat}
    (hoffset : offset ≤ t.length) :
    (table.origin? (t.positionOf offset)).map (Location.describeIn sources names) =
      Mark.trace t (table.map (Mapping.markIn t (Location.describeIn sources names))) offset :=
  trace_marksOf_add h sources names hoffset 0 fun _ _ _ hle => hle

/-- The entries stand at offsets of a text, refer to sources and names of tables, and are the given
marks. -/
structure MarkedBy (t : Text) (sources names : TextTable) (entries : MappingTable)
    (marks : List Mark) : Prop where
  inText : ∀ m ∈ entries, m.InText t
  known : ∀ m ∈ entries, ∀ o ∈ m.origin, o.KnownIn sources names
  marks_eq : entries.map (Mapping.markIn t (Location.describeIn sources names)) = marks

namespace MarkedBy

variable {t : Text} {sources names : TextTable} {entries others : MappingTable}
  {marks : List Mark}

theorem nil : MarkedBy t sources names [] [] := ⟨by simp, by simp, rfl⟩

theorem append {marks' : List Mark} (h : MarkedBy t sources names entries marks)
    (h' : MarkedBy t sources names others marks') :
    MarkedBy t sources names (entries ++ others) (marks ++ marks') := by
  refine ⟨fun m hm => ?_, fun m hm => ?_, by rw [List.map_append, h.marks_eq, h'.marks_eq]⟩
  · exact (List.mem_append.mp hm).elim (h.inText m) (h'.inText m)
  · exact (List.mem_append.mp hm).elim (h.known m) (h'.known m)

/-- The entry at an offset is a mark there. -/
theorem entryAt {offset : Nat} (h : offset ≤ t.length) {origin : Option Location}
    (hknown : ∀ o ∈ origin, o.KnownIn sources names) :
    MarkedBy t sources names [Composition.entryAt t offset origin]
      [⟨offset, origin.map (Location.describeIn sources names)⟩] := by
  refine ⟨fun m hm => ?_, fun m hm => ?_, by rw [List.map_singleton, Mapping.markIn_entryAt h]⟩
  · rw [List.mem_singleton.mp hm]
    exact Mapping.inText_entryAt h origin
  · rw [List.mem_singleton.mp hm]
    exact hknown

/-- Entries are the same marks in larger tables. -/
theorem of_extends {sources' names' : TextTable} (h : MarkedBy t sources names entries marks)
    (hs : sources'.Extends sources) (hn : names'.Extends names) :
    MarkedBy t sources' names' entries marks := by
  refine ⟨h.inText, fun m hm o ho => (h.known m hm o ho).of_extends hs hn, ?_⟩
  rw [← h.marks_eq]
  apply List.map_congr_left
  intro m hm
  cases ho : m.origin with
  | none => simp [Mapping.markIn, ho]
  | some o =>
    simp [Mapping.markIn, ho, Location.describeIn_of_extends (h.known m hm o ho) hs hn]

theorem placed (h : MarkedBy t sources names entries marks) : entries.Placed :=
  fun m hm => (h.inText m hm).placed

end MarkedBy

/-! ## Proper results -/

namespace Composition

/-- The entries of a result stand at offsets of its text, one at an offset at most, and refer to
sources and names of its tables. -/
structure Proper (c : Composition) : Prop where
  inText : ∀ m ∈ c.mappings, m.InText c.text
  increasing : c.mappings.Increasing
  known : ∀ m ∈ c.mappings, ∀ o ∈ m.origin, o.KnownIn c.sources.names c.names

/-- The entries of a result as marks. -/
def marks (c : Composition) : List Mark := c.mappings.map (Mapping.markIn c.text c.describe)

variable {c : Composition}

theorem Proper.markedBy (h : c.Proper) :
    MarkedBy c.text c.sources.names c.names c.mappings c.marks := ⟨h.inText, h.known, rfl⟩

/-- The marks of a result stand in its text. -/
theorem Proper.offset_le (h : c.Proper) : ∀ m ∈ c.marks, m.offset ≤ c.text.length := by
  intro m hm
  obtain ⟨entry, hentry, rfl⟩ := List.mem_map.mp hm
  exact (h.inText entry hentry).offsetIn_le

/-- No mark governs an offset whose position is not found in the table. -/
theorem Proper.governing?_eq_none_iff (h : c.Proper) {offset : Nat}
    (hoffset : offset ≤ c.text.length) :
    Mark.governing? c.text c.marks offset = none ↔
      c.mappings.find? ((c.text.positionOf offset).line : Number)
        ((c.text.positionOf offset).column : Number) = none := by
  have hplaced := h.markedBy.placed
  have hfind := MappingTable.find?_eq_cover? hplaced (h.increasing.sorted hplaced)
    (c.text.positionOf offset)
  rw [marks, MappingTable.governing?_marksOf h.inText _ hoffset, ← hfind]
  simp

/-- The origins of a proper result, by its marks. -/
theorem originAtOffset_eq_trace (h : c.Proper) {offset : Nat} (hoffset : offset ≤ c.text.length) :
    c.originAtOffset offset = Mark.trace c.text c.marks offset := by
  have hplaced := h.markedBy.placed
  rw [originAtOffset, originAt,
    MappingTable.trace?_eq_origin? hplaced (h.increasing.sorted hplaced)]
  exact MappingTable.trace_marksOf h.inText hoffset

variable {entries : MappingTable} {marks : List Mark}

/-- The origins of a result whose table is a normal form, by the marks that it is made of. -/
theorem originAtOffset_of_normalForm (hmappings : c.mappings = entries.normalForm)
    (h : MarkedBy c.text c.sources.names c.names entries marks) {offset : Nat}
    (hoffset : offset ≤ c.text.length) :
    c.originAtOffset offset = Mark.trace c.text marks offset := by
  rw [originAtOffset, originAt, hmappings, MappingTable.trace?_normalForm h.placed, ← h.marks_eq]
  exact MappingTable.trace_marksOf h.inText hoffset

/-- Behind the end of its text a result comes from where the last mark on the last line says. -/
theorem originAt_stop_add (hmappings : c.mappings = entries.normalForm)
    (h : MarkedBy c.text c.sources.names c.names entries marks) (distance : Nat) :
    c.originAt (c.text.stop.line : Number) ((c.text.stop.column + distance : Nat) : Number) =
      (Mark.governing? c.text marks c.text.length).bind
        (Mark.originOf · (c.text.length + distance)) := by
  have hstop : c.text.positionOf c.text.length = c.text.stop := by
    rw [Text.positionOf_eq_stop (Nat.le_refl _), List.take_length]
  have hbetween : ∀ m ∈ entries, m.place.line = c.text.stop.line →
      m.place.column ≤ c.text.stop.column + distance → m.place.column ≤ c.text.stop.column := by
    intro m hm hline _
    have hle := (h.inText m hm).offsetIn_le
    rw [(h.inText m hm).place_eq] at hline ⊢
    rcases Nat.eq_or_lt_of_le hle with heq | hlt
    · exact Nat.le_of_eq (by rw [heq, hstop])
    · have hlt := Text.positionOf_lt hlt (Nat.le_refl _)
      rw [hstop] at hlt
      omega
  have hmarks := MappingTable.trace_marksOf_add h.inText c.sources.names c.names (Nat.le_refl _)
    distance (by rwa [hstop])
  rw [hstop, h.marks_eq] at hmarks
  have htrace := MappingTable.trace?_normalForm h.placed
    ⟨c.text.stop.line, c.text.stop.column + distance⟩
  rw [originAt, hmappings]
  exact (congrArg (Option.map c.describe) htrace).trans hmarks

/-- A result goes on behind the end of its text if it is mapped there. -/
theorem isSome_originAt_stop_add (hmappings : c.mappings = entries.normalForm)
    (h : MarkedBy c.text c.sources.names c.names entries marks) (distance : Nat) :
    (c.originAt (c.text.stop.line : Number) ((c.text.stop.column + distance : Nat) : Number)).isSome =
      (c.originAtOffset c.text.length).isSome := by
  rw [originAt_stop_add hmappings h, originAtOffset_of_normalForm hmappings h (Nat.le_refl _),
    Mark.trace]
  cases Mark.governing? c.text marks c.text.length with
  | none => rfl
  | some m => simp [Mark.originOf]

/-- The marks of a result whose table is a normal form are among those that it is made of. -/
theorem marks_subset_of_normalForm (hmappings : c.mappings = entries.normalForm)
    (h : MarkedBy c.text c.sources.names c.names entries marks) : c.marks ⊆ marks := by
  intro mark hmark
  obtain ⟨m, hm, rfl⟩ := List.mem_map.mp hmark
  rw [hmappings] at hm
  rw [← h.marks_eq]
  exact List.mem_map_of_mem (MappingTable.normalForm_subset hm)

/-- A result whose table is the normal form of entries in its text is proper. -/
theorem proper_of_normalForm (hmappings : c.mappings = entries.normalForm)
    (h : MarkedBy c.text c.sources.names c.names entries marks) : c.Proper := by
  refine ⟨fun m hm => ?_, ?_, fun m hm => ?_⟩
  · rw [hmappings] at hm
    exact h.inText m (MappingTable.normalForm_subset hm)
  · rw [hmappings]
    exact MappingTable.normalForm_increasing h.placed
  · rw [hmappings] at hm
    exact h.known m (MappingTable.normalForm_subset hm)

end Composition

/-! ## Origins with counts -/

/-- A position is at or behind the entry that is found for it. -/
theorem MappingTable.exists_count_of_trace? {table : MappingTable} (hplaced : table.Placed)
    (hsorted : table.Sorted) {line column : Number} (hcolumn : column.Count) {o : Location}
    (h : table.trace? line column = some o) :
    ∃ m ∈ table, ∃ own ∈ m.origin, ∃ distance : Number, distance.Count ∧ o = own.advance distance := by
  obtain ⟨⟨i, m⟩, hfind, ho⟩ := Option.bind_eq_some_iff.mp h
  obtain ⟨own, hown, ho⟩ := Option.bind_eq_some_iff.mp ho
  obtain ⟨hline, hm⟩ := find?_line hfind
  have hmem := List.mem_of_getElem? hm
  rcases hcolumn with rfl | rfl | ⟨column, rfl⟩
  · -- without a column there is no distance
    exact ⟨m, hmem, own, hown, _, Or.inl (Number.nan_add _), (Option.some.inj ho).symm⟩
  · refine ⟨m, hmem, own, hown, _, Or.inr (Or.inl ?_), (Option.some.inj ho).symm⟩
    rw [(hplaced m hmem).column]
    rfl
  · rw [← hline, (hplaced m hmem).line] at h
    have horigin := trace?_eq_origin? hplaced hsorted ⟨m.place.line, column⟩
    rw [h] at horigin
    obtain ⟨own, hown, ho⟩ := Option.bind_eq_some_iff.mp horigin.symm
    obtain ⟨location, hlocation, rfl⟩ := Option.map_eq_some_iff.mp ho
    exact ⟨own, (mem_of_latest hown).1, location, hlocation, _, Number.Count.rounded_natCast _, rfl⟩

namespace Composition

variable {c : Composition}

/-- The lines and columns of the origins in a result are counts. -/
def Counted (c : Composition) : Prop := Mark.Counted c.marks

theorem counted_iff : c.Counted ↔ ∀ m ∈ c.mappings, ∀ o ∈ m.origin, o.line.Count ∧ o.column.Count := by
  unfold Counted Mark.Counted marks
  rw [List.forall_mem_map]
  refine forall₂_congr fun m _ => ⟨fun h o ho => ?_, fun h o ho => ?_⟩
  · obtain ⟨hline, hcolumn⟩ := h (c.describe o) (Option.mem_map_of_mem _ ho)
    exact ⟨hline, hcolumn⟩
  · obtain ⟨own, hown, rfl⟩ := Option.map_eq_some_iff.mp ho
    obtain ⟨hline, hcolumn⟩ := h own hown
    exact ⟨hline, hcolumn⟩

/-- A result is counted if it is made of counted marks. -/
theorem counted_of_normalForm {entries : MappingTable} {marks : List Mark}
    (hmappings : c.mappings = entries.normalForm)
    (h : MarkedBy c.text c.sources.names c.names entries marks) (hmarks : Mark.Counted marks) :
    c.Counted :=
  fun mark hmark => hmarks mark (marks_subset_of_normalForm hmappings h hmark)

/-- Behind the end of its text a counted result goes on from where its end comes from, below 2^53. -/
theorem capped_originAt_stop_add {entries : MappingTable} {marks : List Mark}
    (hmappings : c.mappings = entries.normalForm)
    (h : MarkedBy c.text c.sources.names c.names entries marks) (hmarks : Mark.Counted marks)
    (distance : Nat) :
    (c.originAt (c.text.stop.line : Number) ((c.text.stop.column + distance : Nat) : Number)).map
        OriginPosition.capped =
      ((c.originAtOffset c.text.length).map (OriginPosition.advance · distance)).map
        OriginPosition.capped := by
  rw [originAt_stop_add hmappings h, originAtOffset_of_normalForm hmappings h (Nat.le_refl _),
    Mark.trace]
  cases hm : Mark.governing? c.text marks c.text.length with
  | none => rfl
  | some m =>
    obtain ⟨hmem, hline⟩ := mem_of_latest hm
    exact Mark.originOf_add (hmarks m hmem) (Text.onLine_iff.mp hline).1 distance

/-- **The origin of a position** has a line and a column that are counts. -/
theorem counted_originAt (hproper : c.Proper) (hcounted : c.Counted) {line column : Number}
    (hcolumn : column.Count) {o : OriginPosition} (ho : c.originAt line column = some o) :
    o.Counted := by
  obtain ⟨t, ht, rfl⟩ := Option.map_eq_some_iff.mp ho
  have hplaced := hproper.markedBy.placed
  obtain ⟨m, hm, own, hown, distance, hdistance, rfl⟩ :=
    MappingTable.exists_count_of_trace? hplaced (hproper.increasing.sorted hplaced) hcolumn ht
  obtain ⟨hline, hownColumn⟩ := counted_iff.mp hcounted m hm own hown
  exact ⟨hline, hownColumn.add hdistance⟩

theorem counted_originAtOffset (hproper : c.Proper) (hcounted : c.Counted) {offset : Nat}
    {o : OriginPosition} (ho : c.originAtOffset offset = some o) : o.Counted :=
  counted_originAt hproper hcounted (Number.Count.natCast _) ho

end Composition

end Provenance
