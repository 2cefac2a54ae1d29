/-
# A file maps to itself

The tokens of a text follow each other without a gap, and a line feed stands at the end of a token only,
so that every line that begins before the end of the text begins with a token.  Each token has one entry,
which leads from the token's start to the same place, and so do all positions up to the next entry.

The main facts:

* `isToken_of_mem_all` : a line feed stands at the end of a token only;
* `lineStart_mem_starts` : lines begin with tokens;
* `identity_eq_map` : the table of a file has an entry for each token, at its start;
* `identity_maps_to_itself` : each position on a line of a file comes from where it stands, up to
  rounding.
-/
import Provenance.Mapping.Identity
import Provenance.Proofs.Mapping.LastInserted
import Provenance.Proofs.Number.Fractions
import Provenance.Proofs.Text.Position

namespace Provenance

/-! ## Tokens -/

namespace Token

/-- There is something in a token, and a line feed only at its end. -/
def IsToken (token : Text) : Prop := token ≠ [] ∧ CodeUnit.newline ∉ token.dropLast

theorem not_mem_takeWhile {p : CodeUnit → Bool} (hp : p CodeUnit.newline = false) (t : Text) :
    CodeUnit.newline ∉ t.takeWhile p := by
  intro h
  have := List.all_eq_true.mp List.all_takeWhile _ h
  rw [hp] at this
  cases this

theorem isToken_first {t : Text} (h : t ≠ []) : IsToken (first t) := by
  refine ⟨first_ne_nil h, ?_⟩
  have hbody : CodeUnit.newline ∉ t.takeWhile isPlain ++ (afterBody t).takeWhile isTrailing := by
    rw [List.mem_append, not_or]
    exact ⟨not_mem_takeWhile rfl t, not_mem_takeWhile rfl (afterBody t)⟩
  unfold first
  generalize t.takeWhile isPlain ++ (afterBody t).takeWhile isTrailing = body at hbody
  unfold newlineOf
  split
  · split
    · rwa [List.dropLast_concat]
    · rw [List.append_nil]
      exact fun hmem => hbody ((List.dropLast_sublist _).subset hmem)
  · rw [List.append_nil]
    exact fun hmem => hbody ((List.dropLast_sublist _).subset hmem)

/-- A line feed stands at the end of a token only. -/
theorem isToken_of_mem_all (t : Text) : ∀ token ∈ all t, IsToken token := by
  fun_induction all t with
  | case1 => simp
  | case2 t h ih =>
    intro token htoken
    rcases List.mem_cons.mp htoken with rfl | htoken
    · exact isToken_first h
    · exact ih token htoken

/-- The position behind a token. -/
theorem stop_append_token (before : Text) {token : Text} (h : IsToken token) :
    (before ++ token).stop =
      if token.getLast? = some CodeUnit.newline then ⟨before.stop.line + 1, 0⟩
      else ⟨before.stop.line, before.stop.column + token.length⟩ := by
  obtain ⟨hne, hbody⟩ := h
  rcases List.eq_nil_or_concat token with rfl | ⟨body, u, rfl⟩
  · exact absurd rfl hne
  · rw [List.concat_eq_append] at hbody ⊢
    rw [List.dropLast_concat] at hbody
    rw [List.getLast?_concat]
    by_cases hu : u = CodeUnit.newline
    · rw [if_pos (congrArg some hu), hu, ← List.append_assoc, Text.stop_append_newline,
        Text.countNewlines_append, Text.stop_line]
      have hnone : Text.countNewlines body = 0 := List.count_eq_zero.mpr hbody
      rw [hnone, Nat.add_zero]
    · have hno : CodeUnit.newline ∉ body ++ [u] := by
        rw [List.mem_append, List.mem_singleton, not_or]
        exact ⟨hbody, fun h => hu h.symm⟩
      rw [if_neg (fun h => hu (Option.some.inj h)), Text.stop_append,
        Text.Position.after_of_not_mem hno]

/-! ## Where tokens start -/

/-- The offsets at which tokens start, the first of which stands at `offset`. -/
def startsFrom (offset : Nat) : List Text → List Nat
  | [] => []
  | token :: rest => offset :: startsFrom (offset + token.length) rest

/-- The offsets at which the tokens of a text start. -/
def starts (t : Text) : List Nat := startsFrom 0 (all t)

/-- The starts of tokens that stand behind a text: they are in the tokens, each is behind the one
before, and no line feed stands between a unit and the start of its token. -/
theorem startsFrom_spec {tokens : List Text} (before : Text) {t : Text}
    (h : ∀ token ∈ tokens, IsToken token) (ht : before ++ tokens.flatten = t) :
    let offsets := startsFrom before.length tokens
    (∀ s ∈ offsets, before.length ≤ s ∧ s < t.length) ∧ offsets.Pairwise (· < ·) ∧
      ∀ p, before.length ≤ p → p < t.length → ∃ s ∈ offsets, t.onLine s p = true := by
  -- `before` is the text of the tokens that have been passed
  induction tokens generalizing before with
  | nil =>
    refine ⟨by simp [startsFrom], List.Pairwise.nil, fun p hlow hp => ?_⟩
    rw [← ht, List.flatten_nil, List.append_nil] at hp
    omega
  | cons token rest ih =>
    obtain ⟨htoken, hrest⟩ := List.forall_mem_cons.mp h
    rw [List.flatten_cons, ← List.append_assoc] at ht
    obtain ⟨hbounds, hpairwise, hlines⟩ := ih (before ++ token) hrest ht
    rw [List.length_append] at hbounds hpairwise hlines
    have hpositive : 0 < token.length := List.length_pos_iff.mpr htoken.1
    have hlength : before.length + token.length ≤ t.length := by
      rw [← ht, List.length_append, List.length_append]
      omega
    refine ⟨List.forall_mem_cons.mpr ⟨by omega, fun s hs => ?_⟩,
      List.Pairwise.cons (fun s hs => ?_) hpairwise, fun p hlow hp => ?_⟩
    · have := hbounds s hs
      omega
    · have := hbounds s hs
      omega
    · by_cases hinside : p < before.length + token.length
      · -- a unit of this token, and there is no line feed in front of it in the token
        refine ⟨before.length, List.mem_cons_self, ?_⟩
        have hcut : Text.onLine (before ++ token ++ rest.flatten) (before.length + 0)
            (before.length + (p - before.length)) = token.onLine 0 (p - before.length) :=
          Text.onLine_append (by omega)
        rw [Nat.add_zero, Nat.add_sub_cancel' hlow, ht] at hcut
        rw [hcut]
        refine Text.onLine_iff.mpr ⟨Nat.zero_le _, fun hmem => htoken.2 ?_⟩
        rw [List.drop_zero] at hmem
        rw [List.dropLast_eq_take]
        exact (List.take_subset_take_left token (by omega)) hmem
      · obtain ⟨s, hs, hline⟩ := hlines p (by omega) hp
        exact ⟨s, List.mem_cons_of_mem _ hs, hline⟩

variable {t : Text}

theorem starts_lt {s : Nat} (h : s ∈ starts t) : s < t.length :=
  ((startsFrom_spec [] (isToken_of_mem_all t) (flatten_all t)).1 s h).2

theorem starts_pairwise (t : Text) : (starts t).Pairwise (· < ·) :=
  (startsFrom_spec [] (isToken_of_mem_all t) (flatten_all t)).2.1

/-- No line feed stands between a unit and the start of its token. -/
theorem exists_start {p : Nat} (hp : p < t.length) : ∃ s ∈ starts t, t.onLine s p = true :=
  (startsFrom_spec [] (isToken_of_mem_all t) (flatten_all t)).2.2 p (Nat.zero_le p) hp

/-- **Lines begin with tokens**, if they begin before the end of the text. -/
theorem lineStart_mem_starts {line start : Nat} (h : t.lineOffsets[line]? = some start)
    (hstart : start < t.length) : start ∈ starts t := by
  obtain ⟨s, hs, hon⟩ := exists_start hstart
  have hle := (Text.onLine_iff.mp hon).1
  -- the start of the line is at column 0, which is as far from the token's start as it is
  have hposition := Text.positionOf_of_onLine hon (Nat.le_of_lt hstart)
  rw [(Text.positionOf_lineStart h).2] at hposition
  have hcolumn := congrArg Text.Position.column hposition
  simp only at hcolumn
  obtain rfl : s = start := by omega
  exact hs

end Token

/-! ## Entries -/

/-- The entry that leads from a position to the same position of a source. -/
def Mapping.toItself (source : Number) (p : Text.Position) : Mapping :=
  ⟨(p.line : Number), (p.column : Number),
    some ⟨source, (p.line : Number), (p.column : Number), none⟩⟩

@[simp]
theorem Mapping.placed_toItself (source : Number) (p : Text.Position) :
    (toItself source p).Placed :=
  placed_mk _ _ _

@[simp]
theorem Mapping.place_toItself (source : Number) (p : Text.Position) :
    (toItself source p).place = p :=
  rfl

namespace MappingTable

open Text (Position)

/-- The entries of tokens that stand behind a text. -/
theorem identityFrom_eq_map (source : Number) {tokens : List Text} (before : Text)
    (h : ∀ token ∈ tokens, Token.IsToken token) :
    identityFrom source before.stop.line before.stop.column tokens =
      (Token.startsFrom before.length tokens).map fun s =>
        Mapping.toItself source (Text.positionOf (before ++ tokens.flatten) s) := by
  induction tokens generalizing before with
  | nil => rfl
  | cons token rest ih =>
    obtain ⟨htoken, hrest⟩ := List.forall_mem_cons.mp h
    have ih := ih (before ++ token) hrest
    rw [List.length_append, List.append_assoc] at ih
    have hstep : identityFrom source before.stop.line before.stop.column (token :: rest) =
        Mapping.toItself source before.stop ::
          identityFrom source (before ++ token).stop.line (before ++ token).stop.column rest := by
      rw [identityFrom, Token.stop_append_token before htoken]
      split <;> rfl
    rw [hstep, ih, Token.startsFrom, List.map_cons, List.flatten_cons, Text.positionOf_append]

/-- **The table of a file has an entry for each token**, at its start. -/
theorem identity_eq_map (t : Text) (source : Number) :
    identity t source =
      (Token.starts t).map fun s => Mapping.toItself source (t.positionOf s) := by
  have h := identityFrom_eq_map source [] (Token.isToken_of_mem_all t)
  rwa [List.nil_append, Token.flatten_all] at h

variable {t : Text} {source : Number} {m : Mapping}

theorem mem_identity : m ∈ identity t source ↔
    ∃ s ∈ Token.starts t, Mapping.toItself source (t.positionOf s) = m := by
  rw [identity_eq_map, List.mem_map]

/-- The origin of every entry of a file is where the entry stands. -/
theorem origin_of_mem_identity (h : m ∈ identity t source) :
    m.origin = some ⟨source, m.line, m.column, none⟩ := by
  obtain ⟨s, -, rfl⟩ := mem_identity.mp h
  rfl

theorem identity_placed (t : Text) (source : Number) : (identity t source).Placed := by
  intro m hm
  obtain ⟨s, -, rfl⟩ := mem_identity.mp hm
  exact Mapping.placed_toItself _ _

/-- Each entry of a file stands behind the one before it. -/
theorem identity_increasing (t : Text) (source : Number) : (identity t source).Increasing := by
  rw [identity_eq_map]
  refine List.pairwise_map.mpr ((Token.starts_pairwise t).imp_of_mem fun {a b} _ hb hab => ?_)
  rw [Mapping.precedes_iff (Mapping.placed_toItself _ _) (Mapping.placed_toItself _ _)]
  simp only [Mapping.place_toItself]
  exact Text.positionOf_lt hab (Nat.le_of_lt (Token.starts_lt hb))

theorem identity_integral (t : Text) (source : Number) : (identity t source).Integral := by
  intro m hm
  obtain ⟨s, -, rfl⟩ := mem_identity.mp hm
  exact ⟨_, _, (Number.intCast_natCast _).symm, (Number.intCast_natCast _).symm⟩

/-- On a line of a file that begins before the end, each place falls to the last entry up to it on the
line. -/
theorem mappedBy?_identity (source : Number) {line start : Nat} (h : t.lineOffsets[line]? = some start)
    (hstart : start < t.length) (column : Nat) :
    ∃ first ≤ column,
      (identity t source).mappedBy? ⟨line, column⟩ = some (Mapping.toItself source ⟨line, first⟩) ∧
      ∀ later ≤ column, Mapping.toItself source ⟨line, later⟩ ∈ identity t source → later ≤ first := by
  have hcovers : ∀ c ≤ column,
      (Mapping.toItself source ⟨line, c⟩).place.covers ⟨line, column⟩ = true := by
    intro c hc
    rw [Mapping.place_toItself]
    exact Position.covers_iff.mpr ⟨rfl, hc⟩
  have hfirst : Mapping.toItself source ⟨line, 0⟩ ∈ identity t source :=
    mem_identity.mpr ⟨start, Token.lineStart_mem_starts h hstart,
      congrArg (Mapping.toItself source) (Text.positionOf_lineStart h).2⟩
  -- the entry at the start of the line covers the place, unless a later one does
  obtain ⟨m, hm, -⟩ : ∃ m ∈ (identity t source).cover? ⟨line, column⟩,
      (Mapping.toItself source ⟨line, 0⟩).place.column ≤ m.place.column :=
    exists_latest hfirst (hcovers 0 (Nat.zero_le column))
  obtain ⟨hmem, hcover⟩ := mem_of_latest hm
  obtain ⟨s, -, rfl⟩ := mem_identity.mp hmem
  generalize t.positionOf s = p at hm hcover
  obtain ⟨line', first⟩ := p
  rw [Mapping.place_toItself] at hcover
  obtain ⟨rfl, hcolumn⟩ := Position.covers_iff.mp hcover
  refine ⟨first, hcolumn, mappedBy?_eq_some_iff.mpr ⟨hm, rfl⟩, fun later hlater hmem => ?_⟩
  have hle := key_le_of_latest hm hmem (hcovers later hlater)
  simpa only [Mapping.place_toItself] using hle

/-- A token starts at a column of a line, and no other one between this and another column. -/
structure LastStart (t : Text) (source : Number) (line : Nat) (column : Number) (first : Nat) : Prop where
  mem : Mapping.toItself source ⟨line, first⟩ ∈ identity t source
  le : (first : Number) ≤ column
  last : ∀ later : Nat, Mapping.toItself source ⟨line, later⟩ ∈ identity t source →
    (later : Number) ≤ column → later ≤ first

/-- A position on a line of a file is as far from where it comes from as the last token up to it. -/
theorem trace?_identity {line start : Nat} (h : t.lineOffsets[line]? = some start)
    (hstart : start < t.length) {column : Number} (hcolumn : 0 ≤ column) :
    ∃ first, LastStart t source line column first ∧
      (identity t source).trace? (line : Number) column =
        some ⟨source, (line : Number), (first : Number) + (column - (first : Number)), none⟩ := by
  have hplaced := identity_placed t source
  have hsorted := (identity_increasing t source).sorted hplaced
  -- up to the column stand the same entries as up to a natural
  obtain ⟨c, hcolumns, hzero, hle⟩ := (identity_integral t source).exists_floor column
  have hc : 0 ≤ c := Number.intCast_le.mp (hzero.mp hcolumn)
  obtain ⟨n, rfl⟩ := Int.eq_ofNat_of_zero_le hc
  obtain ⟨first, hfirst, hm, hlast⟩ := mappedBy?_identity source h hstart n
  have hmem := (mem_of_latest (mappedBy?_eq_some_iff.mp hm).1).1
  have hfound : (identity t source).found? (line : Number) column =
      some (Mapping.toItself source ⟨line, first⟩) := by
    rw [found?_congr hcolumns, Number.intCast_natCast, ← hm]
    exact found?_eq_mappedBy? hplaced hsorted ⟨line, n⟩
  refine ⟨first, ⟨hmem, ?_, fun later hmem hlater => ?_⟩, ?_⟩
  · exact (hcolumns _ hmem).mpr (Number.natCast_le.mpr hfirst)
  · exact hlast later (Number.natCast_le.mp ((hcolumns _ hmem).mp hlater)) hmem
  · rw [trace?_eq_found?, hfound, Option.bind_some]
    show some (Location.mk source (line : Number) ((first : Number) + (column - (first : Number)))
      (if column - (first : Number) = 0 then none else none)) = _
    rw [ite_self]

/-- **A file maps to itself.**  Its tokens make up the text, none is empty, and a line feed stands at the
end of a token only.  Its table has an entry for each token, which leads from the token's start to the
same place; each entry stands behind the one before.  On every line that begins before the end of the
text there is an entry at the first column, and each position comes from as far behind the last token's
start as it stands, which is where it stands up to column 2^53: the distance and the sum are rounded. -/
theorem identity_maps_to_itself (t : Text) (source : Number) :
    ((Token.all t).flatten = t ∧ ∀ token ∈ Token.all t, Token.IsToken token) ∧
      identity t source =
        ((Token.starts t).map fun s => Mapping.toItself source (t.positionOf s)) ∧
      (identity t source).Increasing ∧
      ∀ line start : Nat, t.lineOffsets[line]? = some start → start < t.length →
        Mapping.toItself source ⟨line, 0⟩ ∈ identity t source ∧
        ∀ column : Number, 0 ≤ column →
          (∃ first, LastStart t source line column first ∧
            (identity t source).trace? (line : Number) column =
              some ⟨source, (line : Number), (first : Number) + (column - (first : Number)), none⟩) ∧
          (column.Fraction ∨ column = .posInf →
            (identity t source).trace? (line : Number) column =
              some ⟨source, (line : Number), column, none⟩) := by
  refine ⟨⟨Token.flatten_all t, Token.isToken_of_mem_all t⟩, identity_eq_map t source,
    identity_increasing t source, fun line start hline hstart =>
      ⟨?_, fun column hcolumn => ⟨trace?_identity hline hstart hcolumn, fun hexact => ?_⟩⟩⟩
  · refine mem_identity.mpr ⟨start, Token.lineStart_mem_starts hline hstart, ?_⟩
    rw [(Text.positionOf_lineStart hline).2]
  · obtain ⟨first, hfirst, htrace⟩ := trace?_identity hline hstart hcolumn
    rw [htrace]
    rcases hexact with hfraction | rfl
    · rw [Number.natCast_add_sub_of_fraction hfraction hfirst.le]
    · rfl

/-- A statement, an empty line with blanks, and a block that ends in the middle of a line. -/
theorem identity_maps_to_itself_block :
    let t : Text := "a; \n \n{}b"
    t.lineOffsets[2]? = some 6 ∧ Token.starts t = [0, 4, 6, 8] ∧
      Mapping.toItself 3 ⟨2, 0⟩ ∈ identity t 3 ∧
      (identity t 3).trace? 2 7 = some ⟨3, 2, 7, none⟩ := by
  intro t
  have hline : t.lineOffsets[2]? = some 6 := by decide +kernel
  obtain ⟨-, -, -, hlines⟩ := identity_maps_to_itself t 3
  obtain ⟨hmem, htrace⟩ := hlines 2 6 hline (by decide +kernel)
  exact ⟨hline, by decide +kernel, hmem,
    (htrace 7 (by decide)).2 (Or.inl (Number.fraction_natCast (n := 7) (by decide)))⟩

/-- Beyond column 2^53 the distance from the last token is rounded, and leads two columns too far. -/
theorem identity_rounded :
    let t : Text := "ab;c"
    t.lineOffsets[0]? = some 0 ∧ 0 < t.length ∧
      (identity t 0).trace? 0 9007199254740998 = some ⟨0, 0, 9007199254741000, none⟩ ∧
      (identity t 0).trace? 0 9007199254740998 ≠ some ⟨0, 0, 9007199254740998, none⟩ := by
  intro t
  have htrace : (identity t 0).trace? 0 9007199254740998 = some ⟨0, 0, 9007199254741000, none⟩ := by
    decide +kernel
  refine ⟨by decide +kernel, by decide +kernel, htrace, ?_⟩
  rw [htrace]
  decide

end MappingTable

end Provenance
