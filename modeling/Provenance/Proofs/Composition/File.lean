/-
# The result of a file

The entries of a file stand at the offsets at which its tokens start, and lead to where they stand.

The main facts:

* `file_proper` : the result of a file is proper;
* `originAtOffset_file` : every unit of a file comes from where it stands, up to 2^53 of them.
-/
import Provenance.Proofs.Composition.Origin
import Provenance.Proofs.Mapping.Identity

namespace Provenance

namespace Composition

/-- The result of a text that comes from nowhere is proper. -/
theorem plain_proper (t : Text) : (plain t).Proper :=
  ⟨by simp [plain], List.Pairwise.nil, by simp [plain]⟩

/-- The entries of a file stand at the starts of its tokens. -/
theorem mem_mappings_file {t name : Text} {m : Mapping} : m ∈ (file t name).mappings ↔
    ∃ s ∈ Token.starts t, entryAt t s
      (some ⟨0, ((t.positionOf s).line : Number), ((t.positionOf s).column : Number), none⟩) = m :=
  MappingTable.mem_identity

/-- The result of a file is proper. -/
theorem file_proper (t name : Text) : (file t name).Proper := by
  refine ⟨fun m hm => ?_, MappingTable.identity_increasing t 0, fun m hm o ho => ?_⟩
  · obtain ⟨s, hs, rfl⟩ := mem_mappings_file.mp hm
    exact Mapping.inText_entryAt (Nat.le_of_lt (Token.starts_lt hs)) _
  · obtain rfl := Option.some.inj ((MappingTable.origin_of_mem_identity hm).symm.trans ho)
    exact ⟨rfl, by simp⟩

/-! ## Origins in a file -/

/-- An offset of a file, as its origin. -/
def ownOrigin (t name : Text) (offset : Nat) : OriginPosition :=
  ⟨some name, ((t.positionOf offset).line : Number), ((t.positionOf offset).column : Number), none⟩

/-- The marks of a file stand at the starts of its tokens, and their origins are where they stand. -/
theorem mem_marks_file_iff {t name : Text} {m : Mark} : m ∈ (file t name).marks ↔
    ∃ s ∈ Token.starts t, ⟨s, some (ownOrigin t name s)⟩ = m := by
  have hmark : ∀ s ∈ Token.starts t,
      (entryAt t s (some ⟨0, ((t.positionOf s).line : Number), ((t.positionOf s).column : Number),
        none⟩)).markIn t (file t name).describe = ⟨s, some (ownOrigin t name s)⟩ := fun s hs =>
    Mapping.markIn_entryAt (Nat.le_of_lt (Token.starts_lt hs)) _ _
  refine ⟨fun h => ?_, ?_⟩
  · obtain ⟨entry, hentry, rfl⟩ := List.mem_map.mp h
    obtain ⟨s, hs, rfl⟩ := mem_mappings_file.mp hentry
    exact ⟨s, hs, (hmark s hs).symm⟩
  · rintro ⟨s, hs, rfl⟩
    exact List.mem_map.mpr ⟨_, mem_mappings_file.mpr ⟨s, hs, rfl⟩, hmark s hs⟩

/-- A mark of a file stands at a unit of its text, and its origin is where it stands. -/
theorem mem_marks_file {t name : Text} {m : Mark} (h : m ∈ (file t name).marks) :
    m.offset < t.length ∧ m.origin = some (ownOrigin t name m.offset) := by
  obtain ⟨s, hs, rfl⟩ := mem_marks_file_iff.mp h
  exact ⟨Token.starts_lt hs, rfl⟩

/-- **Every unit of a file comes from where it stands in the file.** -/
theorem originAtOffset_file (t name : Text) {p : Nat} (hp : p < t.length)
    (hexact : p ≤ Number.exactLimit) :
    (file t name).originAtOffset p = some (ownOrigin t name p) := by
  obtain ⟨s, hs, hline⟩ := Token.exists_start hp
  -- the token of the unit has a mark, and the mark that governs the unit is one of the file's
  obtain ⟨m, hm, -⟩ : ∃ m ∈ Mark.governing? (file t name).text (file t name).marks p,
      s ≤ m.offset :=
    exists_latest (mem_marks_file_iff.mpr ⟨s, hs, rfl⟩) hline
  obtain ⟨hmem, hon⟩ := mem_of_latest hm
  obtain ⟨start, -, rfl⟩ := mem_marks_file_iff.mp hmem
  have hposition : t.positionOf p = _ := Text.positionOf_of_onLine hon (Nat.le_of_lt hp)
  rw [originAtOffset_eq_trace (file_proper t name) (Nat.le_of_lt hp), Mark.trace,
    Option.mem_def.mp hm, Option.bind_some, Mark.originOf, Option.map_some]
  have hle : (t.positionOf start).column + (p - start) ≤ Number.exactLimit := by
    have hcolumn := congrArg Text.Position.column hposition
    have := (Text.positionOf_le (Nat.le_of_lt hp)).2
    simp only at hcolumn
    omega
  rw [ownOrigin, ownOrigin, hposition]
  simp [OriginPosition.advance, Number.rounded_natCast_of_le (by omega : p - start ≤ Number.exactLimit),
    Number.natCast_add_of_le hle]

end Composition

end Provenance
