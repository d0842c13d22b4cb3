import Bbq.Jit.Extract
import Mathlib.Data.List.Dedup

/-!
# What is extracted

The extraction is an error or sound on the objects whose symbols and relocations fit (`extraction_sound_iff`), and on no
other.
-/

namespace Bbq.Jit

/-! ## The names of the holes -/

def firsts (names : List Name) : List Name → List Name := List.foldl holeNamesOf names

section

variable {names : List Name} {n : Name}

theorem mem_holeNamesOf {m : Name} : m ∈ holeNamesOf names n ↔ m ∈ names ∨ m = n := by
  unfold holeNamesOf
  split
  case isTrue h => exact ⟨.inl, fun hm => hm.elim id fun he => he ▸ h⟩
  case isFalse => simp

theorem nodup_holeNamesOf (hn : names.Nodup) : (holeNamesOf names n).Nodup := by
  unfold holeNamesOf
  split
  case isTrue => exact hn
  case isFalse h => exact (List.nodup_append.2 ⟨hn, List.nodup_singleton n, by grind⟩)

theorem prefix_holeNamesOf : names <+: holeNamesOf names n := by
  unfold holeNamesOf
  split
  case isTrue => exact List.prefix_rfl
  case isFalse => exact List.prefix_append names [n]

/-- The index of a hole, found or created. -/
theorem idxOf_holeNamesOf : (holeNamesOf names n).idxOf n = names.idxOf n := by
  unfold holeNamesOf
  split
  case isTrue => rfl
  case isFalse h => rw [List.idxOf_append, if_neg h, List.idxOf_eq_length h]; simp

theorem idxOf_of_front {all : List Name} (hp : names <+: all) (hn : n ∈ names) : all.idxOf n = names.idxOf n := by
  obtain ⟨rest, rfl⟩ := hp
  rw [List.idxOf_append, if_pos hn]

theorem mem_firsts {l : List Name} {m : Name} : m ∈ firsts names l ↔ m ∈ names ∨ m ∈ l := by
  induction l generalizing names with
  | nil => simp [firsts]
  | cons n l ih =>
    change m ∈ firsts (holeNamesOf names n) l ↔ _
    rw [ih, mem_holeNamesOf, List.mem_cons, or_assoc]

theorem nodup_firsts {l : List Name} (hn : names.Nodup) : (firsts names l).Nodup := by
  induction l generalizing names with
  | nil => exact hn
  | cons n l ih => exact ih (nodup_holeNamesOf hn)

theorem prefix_firsts {l : List Name} : names <+: firsts names l := by
  induction l generalizing names with
  | nil => exact List.prefix_rfl
  | cons n l ih => exact prefix_holeNamesOf.trans ih

theorem length_firsts (l : List Name) : (firsts [] l).length = l.dedup.length := by
  refine ((List.perm_ext_iff_of_nodup (nodup_firsts List.nodup_nil) l.nodup_dedup).2 fun m => ?_).length_eq
  rw [mem_firsts, List.mem_dedup]
  simp

end

/-- An index of 16 bits names every hole if there are at most that many. -/
theorem names_iff {names : List Name} (hn : names.Nodup) :
    (∀ n ∈ names, names[(UInt16.ofNat (names.idxOf n)).toNat]? = some n) ↔ names.length ≤ 2 ^ 16 := by
  constructor
  · intro hall
    by_contra hlong
    have hlt : 2 ^ 16 < names.length := by omega
    have hlast := hall _ (List.getElem_mem hlt)
    rw [hn.idxOf_getElem, UInt16.toNat_ofNat'] at hlast
    have hzero : names[2 ^ 16 % 2 ^ 16]? = some (names[0]) := List.getElem?_eq_getElem _
    rw [hzero, Option.some.injEq, hn.getElem_inj_iff] at hlast
    omega
  · intro hshort n hmem
    have hlt := List.idxOf_lt_length_of_mem hmem
    rw [UInt16.toNat_ofNat', Nat.mod_eq_of_lt (by omega), List.getElem?_eq_getElem hlt, List.getElem_idxOf hlt]

/-! ## The loop over the relocations -/

section

variable {si : StencilInfo} {h : Holes} {r : RelaEntry}

theorem addRela_other (hc : si.covers r = false) : addRela si h r = h := by
  simp [addRela, hc]

theorem addRela_hole {t : PatchType} (hc : si.covers r = true) (hh : r.isHole = true) (ht : patchType r.type = some t) :
    addRela si h r =
      { h with
        names := holeNamesOf h.names r.symName
        patches := h.patches ++ [⟨si.fieldOffset r, t, .ofNat (h.names.idxOf r.symName)⟩] } := by
  simp [addRela, hc, hh, ht]

/-- The relocation is one that a stencil may have. -/
def Patchable (si : StencilInfo) (r : RelaEntry) : Prop :=
  si.covers r = true → r.isHole = true ∧ (patchType r.type).isSome = true

theorem addRela_diagnostics : (addRela si h r).diagnostics = [] ↔ h.diagnostics = [] ∧ Patchable si r := by
  unfold addRela Patchable
  cases hc : si.covers r <;> cases hh : r.isHole <;> cases ht : patchType r.type <;> simp

theorem foldl_diagnostics {rs : List RelaEntry} :
    (rs.foldl (addRela si) h).diagnostics = [] ↔ h.diagnostics = [] ∧ ∀ r ∈ rs, Patchable si r := by
  induction rs generalizing h with
  | nil => simp
  | cons r rs ih => rw [List.foldl_cons, ih, addRela_diagnostics, List.forall_mem_cons, and_assoc]

theorem foldl_names {rs : List RelaEntry} (hp : ∀ r ∈ rs, Patchable si r) :
    (rs.foldl (addRela si) h).names = firsts h.names ((rs.filter si.covers).map RelaEntry.symName) := by
  induction rs generalizing h with
  | nil => rfl
  | cons r rs ih =>
    have hrest := ih (h := addRela si h r) fun r' hr' => hp r' (List.mem_cons_of_mem _ hr')
    rw [List.foldl_cons, hrest, List.filter_cons]
    cases hc : si.covers r with
    | false => rw [addRela_other hc]; rfl
    | true =>
      obtain ⟨hh, ht⟩ := hp r List.mem_cons_self hc
      obtain ⟨t, ht⟩ := Option.isSome_iff_exists.1 ht
      rw [addRela_hole hc hh ht]
      rfl

/-- The patch of a relocation, `names` being the holes. -/
structure PatchOf (si : StencilInfo) (names : List Name) (r : RelaEntry) (p : PatchInfo) : Prop where
  offset : p.offset = si.fieldOffset r
  type : patchType r.type = some p.type
  index : p.holeIndex = .ofNat (names.idxOf r.symName)

theorem foldl_patches {rs : List RelaEntry} (hp : ∀ r ∈ rs, Patchable si r) :
    ∃ ps, (rs.foldl (addRela si) h).patches = h.patches ++ ps ∧
      List.Forall₂ (PatchOf si (rs.foldl (addRela si) h).names) (rs.filter si.covers) ps := by
  induction rs generalizing h with
  | nil => exact ⟨[], by simp, .nil⟩
  | cons r rs ih =>
    have hrest : ∀ r' ∈ rs, Patchable si r' := fun r' hr' => hp r' (List.mem_cons_of_mem _ hr')
    obtain ⟨ps, hps, hall⟩ := ih (h := addRela si h r) hrest
    rw [List.foldl_cons, List.filter_cons]
    cases hc : si.covers r with
    | false => rw [addRela_other hc] at hps hall ⊢; exact ⟨ps, hps, by simpa using hall⟩
    | true =>
      obtain ⟨hh, ht⟩ := hp r List.mem_cons_self hc
      obtain ⟨t, ht⟩ := Option.isSome_iff_exists.1 ht
      have hadd := addRela_hole (h := h) hc hh ht
      refine ⟨_ :: ps, by rw [hps, hadd, List.append_assoc]; rfl, ?_⟩
      simp only [if_true]
      refine .cons ⟨rfl, ht, ?_⟩ hall
      -- the index that was found or created is the one in the list of all
      rw [foldl_names hrest, hadd]
      exact congrArg UInt16.ofNat
        ((idxOf_of_front prefix_firsts (mem_holeNamesOf.2 (.inr rfl))).trans idxOf_holeNamesOf).symm

end

/-! ## One stencil -/

theorem forall₂_iff {α β : Type} {P R : α → β → Prop} {Q : α → Prop} {l : List α} {ps : List β}
    (hall : List.Forall₂ P l ps) (hiff : ∀ a b, P a b → (R a b ↔ Q a)) : List.Forall₂ R l ps ↔ ∀ a ∈ l, Q a := by
  induction hall with
  | nil => simp
  | cons hp _ ih => rw [List.forall₂_cons, List.forall_mem_cons, hiff _ _ hp, ih]

section

variable {f : File} {info : ElfInfo} {si : StencilInfo}

theorem toNat_add_of_lt {a b : UInt64} (h : a.toNat + b.toNat < 2 ^ 64) : (a + b).toNat = a.toNat + b.toNat := by
  rw [UInt64.toNat_add, Nat.mod_eq_of_lt h]

/-- Where nothing wraps around, the loop takes the relocations of the range. -/
theorem relas_eq (hrange : si.offset.toNat + si.size.toNat < 2 ^ 64) : si.relas info = info.textRelas.filter si.covers := by
  refine List.filter_congr fun r _ => ?_
  simp [StencilInfo.covers, UInt64.le_iff_toNat_le, UInt64.lt_iff_toNat_lt, toNat_add_of_lt hrange]

/-- What is extracted where nothing is reported. -/
def stencilFor (f : File) (info : ElfInfo) (si : StencilInfo) : Stencil :=
  ⟨si.name, bytesAt f.bytes (info.textOffset + si.offset).toNat si.size.toNat, (holesOf info si).patches,
    (holesOf info si).names, dataHoleCount (holesOf info si)⟩

/-- The patches are sound if and only if the fields and the indices are. -/
theorem patches_iff (hun : Unreported info si) (hbody : BodyInside f info si) :
    List.Forall₂ (PatchSound (stencilFor f info si)) (info.textRelas.filter si.covers) (stencilFor f info si).patches ↔
      (∀ r ∈ info.textRelas, si.covers r = true → ∀ t, patchType r.type = some t →
        (si.fieldOffset r).toNat + t.width ≤ si.size.toNat) ∧
      ((info.textRelas.filter si.covers).map RelaEntry.symName).dedup.length ≤ 2 ^ 16 := by
  obtain ⟨ps, hps, hall⟩ := foldl_patches (h := ⟨[], [], []⟩) hun.relas
  have hnames := foldl_names (h := ⟨[], [], []⟩) hun.relas
  have hlen : (stencilFor f info si).code.length = si.size.toNat := length_bytesAt (hbody hun.body hun.range)
  have hpatch : ∀ r p, PatchOf si (holesOf info si).names r p →
      (PatchSound (stencilFor f info si) r p ↔
        (∀ t, patchType r.type = some t → (si.fieldOffset r).toNat + t.width ≤ si.size.toNat) ∧
        (holesOf info si).names[(UInt16.ofNat ((holesOf info si).names.idxOf r.symName)).toNat]? = some r.symName) := by
    intro r p hp
    constructor
    · rintro ⟨hin, hhole⟩
      rw [hp.index] at hhole
      rw [hlen, hp.offset] at hin
      refine ⟨fun t ht => ?_, hhole⟩
      obtain rfl := Option.some.inj (hp.type.symm.trans ht)
      exact hin
    · rintro ⟨hin, hhole⟩
      exact ⟨by rw [hlen, hp.offset]; exact hin _ hp.type, by rw [hp.index]; exact hhole⟩
  change List.Forall₂ _ _ (holesOf info si).patches ↔ _
  rw [show (holesOf info si).patches = ps from hps, forall₂_iff hall hpatch, ← length_firsts,
    ← names_iff (nodup_firsts List.nodup_nil)]
  rw [show (holesOf info si).names = firsts [] _ from hnames]
  constructor
  · intro h
    refine ⟨fun r hr hc => (h r (List.mem_filter.2 ⟨hr, hc⟩)).1, fun n hn => ?_⟩
    obtain hn | hn := mem_firsts.1 hn
    · exact nomatch hn
    · obtain ⟨r, hr, rfl⟩ := List.mem_map.1 hn
      exact (h r hr).2
  · rintro ⟨hfields, hholes⟩ r hr
    exact ⟨hfields r (List.mem_filter.1 hr).1 (List.mem_filter.1 hr).2,
      hholes r.symName (mem_firsts.2 (.inr (List.mem_map_of_mem hr)))⟩

/-- **A stencil of which nothing is reported is sound if and only if the symbol fits.** -/
theorem sound_iff (hun : Unreported info si) (hbody : BodyInside f info si) :
    Sound f info si (stencilFor f info si) ↔ Fits info si := by
  have hin := hbody hun.body hun.range
  have hle := UInt64.le_iff_toNat_le.1 hun.range
  constructor
  · rintro ⟨htext, hfile, -, hpatches⟩
    have hrange : si.offset.toNat + si.size.toNat < 2 ^ 64 := by have := info.textSize.toNat_lt; omega
    rw [relas_eq hrange, patches_iff hun hbody] at hpatches
    exact ⟨hrange, by have := f.small; omega, hpatches.1, hpatches.2⟩
  · rintro ⟨hrange, htext, hfields, hholes⟩
    rw [toNat_add_of_lt htext] at hin
    rw [toNat_add_of_lt hrange] at hle
    refine ⟨hle, hin, by rw [stencilFor, toNat_add_of_lt htext], ?_⟩
    rw [relas_eq hrange, patches_iff hun hbody]
    exact ⟨hfields, hholes⟩

/-! ## All of them -/

theorem extractOne_isSome : (extractOne f info si).isSome = true ↔ BodyInside f info si := by
  unfold extractOne BodyInside
  split
  case isTrue h => simp [h]
  case isFalse h =>
    split
    case isTrue hpast => simp [UInt64.not_le.2 hpast]
    case isFalse hpast =>
      rw [isSome_bind, File.slice]
      split <;> simp_all

theorem extractOne_unreported (hun : Unreported info si) (hbody : BodyInside f info si) :
    extractOne f info si = some ([], some (stencilFor f info si)) := by
  have hd : (holesOf info si).diagnostics = [] := foldl_diagnostics.2 ⟨rfl, hun.relas⟩
  have hslice : f.slice (info.textOffset + si.offset) si.size = some _ := if_pos (hbody hun.body hun.range)
  rw [extractOne, if_neg hun.body, if_neg (UInt64.not_lt.2 hun.range), hslice]
  simp [hd, stencilFor]

/-- Nothing is reported only of such a symbol. -/
theorem unreported_of_extractOne {o : Option Stencil} (h : extractOne f info si = some ([], o)) : Unreported info si := by
  unfold extractOne at h
  split at h
  case isTrue => simp at h
  case isFalse hbody =>
    split at h
    case isTrue => simp at h
    case isFalse hrange =>
      obtain ⟨code, -, h⟩ := Option.bind_eq_some_iff.1 h
      have hd : (holesOf info si).diagnostics = [] := (Prod.mk.inj (Option.some.inj h)).1
      exact ⟨hbody, UInt64.not_lt.1 hrange, (foldl_diagnostics.1 hd).2⟩

theorem extractStencils_isSome :
    (extractStencils f info).isSome = true ↔ ∀ si ∈ info.stencils, BodyInside f info si := by
  unfold extractStencils
  rw [isSome_bind, isSome_mapM]
  exact ⟨fun h si hsi => extractOne_isSome.1 (h.1 si hsi),
    fun h => ⟨fun si hsi => extractOne_isSome.2 (h si hsi), fun _ _ => rfl⟩⟩

theorem mapM_unreported {l : List StencilInfo} (hbody : ∀ si ∈ l, BodyInside f info si)
    (hun : ∀ si ∈ l, Unreported info si) :
    l.mapM (extractOne f info) = some (l.map fun si => ([], some (stencilFor f info si))) := by
  induction l with
  | nil => rfl
  | cons si l ih =>
    rw [List.forall_mem_cons] at hbody hun
    simp [List.mapM_cons, extractOne_unreported hun.1 hbody.1, ih hbody.2 hun.2]

theorem unreported_of_mapM {l : List StencilInfo} {rs : List (List Diagnostic × Option Stencil)}
    (h : l.mapM (extractOne f info) = some rs) (hds : rs.flatMap Prod.fst = []) : ∀ si ∈ l, Unreported info si := by
  induction l generalizing rs with
  | nil => simp
  | cons si l ih =>
    rw [List.mapM_cons] at h
    obtain ⟨⟨d, o⟩, hone, h⟩ := Option.bind_eq_some_iff.1 h
    obtain ⟨rs', hrest, h⟩ := Option.bind_eq_some_iff.1 h
    obtain rfl := Option.some.inj h
    rw [List.flatMap_cons, List.append_eq_nil_iff] at hds
    obtain ⟨rfl, hds⟩ := hds
    exact List.forall_mem_cons.2 ⟨unreported_of_extractOne hone, ih hrest hds⟩

/-- The extraction succeeds where nothing is reported. -/
theorem extractStencils_ok {stencils : List Stencil} (hbody : ∀ si ∈ info.stencils, BodyInside f info si) :
    extractStencils f info = some (.ok stencils) ↔
      (∀ si ∈ info.stencils, Unreported info si) ∧ stencils = info.stencils.map (stencilFor f info) := by
  constructor
  · intro h
    obtain ⟨rs, hrs, h⟩ := Option.bind_eq_some_iff.1 h
    have hds : rs.flatMap Prod.fst = [] := by
      by_contra hne
      simp [hne] at h
    have hun := unreported_of_mapM hrs hds
    rw [mapM_unreported hbody hun, Option.some.injEq] at hrs
    subst hrs
    dsimp only at h
    rw [if_pos hds, List.filterMap_map] at h
    refine ⟨hun, ?_⟩
    simpa [Function.comp_def] using h.symm
  · rintro ⟨hun, rfl⟩
    unfold extractStencils
    rw [mapM_unreported hbody hun]
    simp [List.filterMap_map, List.flatMap_map]

/-! ## The program -/

theorem jitterator_ok {read : List UInt8 → Option Elf} {stencils : List Stencil} :
    jitterator read f = some (.ok stencils) ↔
      f.bytes ≠ [] ∧ ∃ e info, read f.bytes = some e ∧ parseElf f e = some (.ok info) ∧ info.stencils ≠ [] ∧
        extractStencils f info = some (.ok stencils) := by
  unfold jitterator
  constructor
  · intro h
    split at h
    case isTrue => simp at h
    case isFalse hbytes =>
      split at h
      case h_1 => simp at h
      case h_2 e hread =>
        obtain ⟨r, hparse, h⟩ := Option.bind_eq_some_iff.1 h
        cases r with
        | error m => simp at h
        | ok info =>
          dsimp only at h
          split at h
          case isTrue => simp at h
          case isFalse hnil =>
            obtain ⟨o, hextract, h⟩ := Option.bind_eq_some_iff.1 h
            cases o with
            | error ds => simp at h
            | ok ss =>
              obtain rfl := Except.ok.inj (Option.some.inj h)
              exact ⟨hbytes, e, info, hread, hparse, hnil, hextract⟩
  · rintro ⟨hbytes, e, info, hread, hparse, hnil, hextract⟩
    simp [hbytes, hread, hparse, hnil, hextract]

theorem jitterator_isSome {read : List UInt8 → Option Elf} :
    (jitterator read f).isSome = true ↔ (f.bytes ≠ [] → ∀ e, read f.bytes = some e →
      ParsesInside f e ∧ ∀ info, parseElf f e = some (.ok info) → ∀ si ∈ info.stencils, BodyInside f info si) := by
  unfold jitterator
  by_cases hbytes : f.bytes = []
  case pos => simp [hbytes]
  case neg =>
    rw [if_neg hbytes]
    cases hread : read f.bytes with
    | none => simp
    | some e =>
      simp only [ne_eq, hbytes, not_false_eq_true, Option.some.injEq, forall_const, forall_eq']
      rw [isSome_bind, parseElf_inside]
      refine and_congr_right fun _ => ?_
      constructor
      · intro h info hinfo
        have hk := h _ hinfo
        dsimp only at hk
        split at hk
        case isTrue hnil => simp [hnil]
        case isFalse =>
          rw [isSome_bind, extractStencils_isSome] at hk
          exact hk.1
      · intro h r hr
        cases r with
        | error m => rfl
        | ok info =>
          dsimp only
          split
          case isTrue => rfl
          case isFalse =>
            rw [isSome_bind, extractStencils_isSome]
            refine ⟨h info hr, fun o _ => ?_⟩
            cases o <;> rfl

end

/-- **The extraction is safe if and only if `parse_elf` stays in the file and the object's symbols fit.** -/
theorem extraction_sound_iff (read : List UInt8 → Option Elf) (f : File) :
    Extracts read f ↔ (f.bytes ≠ [] → ∀ e, read f.bytes = some e →
      ParsesInside f e ∧ ∀ info, parseElf f e = some (.ok info) → ObjectFits f info) := by
  constructor
  · rintro ⟨o, ho, hsound⟩ hbytes e hread
    have hin := jitterator_isSome.1 (Option.isSome_iff_exists.2 ⟨o, ho⟩) hbytes e hread
    refine ⟨hin.1, fun info hinfo => ?_⟩
    have hbody := hin.2 info hinfo
    refine ⟨hbody, fun hun si hsi => ?_⟩
    have hok : jitterator read f = some (.ok (info.stencils.map (stencilFor f info))) :=
      jitterator_ok.2 ⟨hbytes, e, info, hread, hinfo, List.ne_nil_of_mem hsi,
        (extractStencils_ok hbody).2 ⟨hun, rfl⟩⟩
    obtain ⟨e', info', hread', hinfo', hall⟩ := hsound _ (Option.some.inj (ho.symm.trans hok))
    obtain rfl := Option.some.inj (hread.symm.trans hread')
    obtain rfl := Except.ok.inj (Option.some.inj (hinfo.symm.trans hinfo'))
    rw [List.forall₂_map_right_iff, List.forall₂_same] at hall
    exact (sound_iff (hun si hsi) (hbody si hsi)).1 (hall si hsi)
  · intro h
    obtain ⟨o, ho⟩ := Option.isSome_iff_exists.1 (jitterator_isSome.2 fun hbytes e hread =>
      ⟨(h hbytes e hread).1, fun info hinfo => ((h hbytes e hread).2 info hinfo).bodies⟩)
    refine ⟨o, ho, fun stencils hstencils => ?_⟩
    subst hstencils
    obtain ⟨hbytes, e, info, hread, hinfo, -, hextract⟩ := jitterator_ok.1 ho
    have hfits := (h hbytes e hread).2 info hinfo
    obtain ⟨hun, rfl⟩ := (extractStencils_ok hfits.bodies).1 hextract
    refine ⟨e, info, hread, hinfo, ?_⟩
    rw [List.forall₂_map_right_iff, List.forall₂_same]
    exact fun si hsi => (sound_iff (hun si hsi) (hfits.bodies si hsi)).2 (hfits.fits hun si hsi)

/-! ## An object whose relocation does not fit -/

/-- The bytes of a section header. -/
def Shdr.ofBytes (bs : List UInt8) : Shdr where
  name := .ofNat (leNat (bytesAt bs 0 4))
  type := .ofNat (leNat (bytesAt bs 4 4))
  offset := .ofNat (leNat (bytesAt bs 24 8))
  size := .ofNat (leNat (bytesAt bs 32 8))
  link := .ofNat (leNat (bytesAt bs 40 4))
  info := .ofNat (leNat (bytesAt bs 44 4))
  entsize := .ofNat (leNat (bytesAt bs 56 8))

/-- `Elf64` of `elf64.bbq` on objects without program headers. -/
def readElf64 (bs : List UInt8) : Option Elf :=
  if bs.length < 64 ∨ leNat (bytesAt bs 0 4) ≠ 0x464C457F ∨ leNat (bytesAt bs 4 1) ≠ 2 ∨ leNat (bytesAt bs 56 2) ≠ 0 then
    none
  else
    let shoff := leNat (bytesAt bs 40 8)
    let shentsize := leNat (bytesAt bs 58 2)
    let shnum := leNat (bytesAt bs 60 2)
    if shnum ≠ 0 ∧ (shentsize < 64 ∨ bs.length < shoff + shnum * shentsize) then none
    else
      some
        { shstrndx := .ofNat (leNat (bytesAt bs 62 2))
          shdrs := (List.range shnum).map fun i => .ofBytes (bytesAt bs (shoff + i * shentsize) 64) }

def leBytes : (n v : Nat) → List UInt8
  | 0, _ => []
  | n + 1, v => .ofNat v :: leBytes n (v / 256)

def shdrBytes (name type offset size link info entsize : Nat) : List UInt8 :=
  leBytes 4 name ++ leBytes 4 type ++ leBytes 16 0 ++ leBytes 8 offset ++ leBytes 8 size ++ leBytes 4 link ++
    leBytes 4 info ++ leBytes 8 1 ++ leBytes 8 entsize

/-- The function `a` of four bytes, the first of them relocated by `R_X86_64_64`. -/
def straddling : List UInt8 :=
  leBytes 4 0x464C457F ++ leBytes 12 0x10102 ++ leBytes 24 0x1003E0001 ++ leBytes 8 64 ++ leBytes 10 0 ++
    leBytes 2 64 ++ leBytes 2 4 ++ leBytes 2 1 ++
  shdrBytes 1 1 320 4 0 0 0 ++ shdrBytes 0 3 324 17 0 0 0 ++ shdrBytes 0 2 341 48 1 0 24 ++ shdrBytes 0 4 389 24 2 0 24 ++
  [0xC3, 0x90, 0x90, 0x90] ++
  [0] ++ ascii ".text" ++ [0] ++ ascii "a" ++ [0] ++ ascii "_HOLE_x" ++ [0] ++
  leBytes 4 7 ++ leBytes 1 0x12 ++ leBytes 1 0 ++ leBytes 2 0 ++ leBytes 8 0 ++ leBytes 8 4 ++
  leBytes 4 9 ++ leBytes 1 0x10 ++ leBytes 1 0 ++ leBytes 2 0 ++ leBytes 8 0 ++ leBytes 8 0 ++
  leBytes 8 0 ++ leBytes 8 0x100000001 ++ leBytes 8 0

def straddlingFile : File := ⟨straddling, by decide +kernel⟩

/-- Eight bytes are to be patched in the four of the code. -/
theorem field_straddles : ¬ Extracts readElf64 straddlingFile := by
  have hrun : jitterator readElf64 straddlingFile =
      some (.ok [⟨ascii "a", [0xC3, 0x90, 0x90, 0x90], [⟨0, .abs64, 0⟩], [ascii "_HOLE_x"], 0⟩]) := by
    decide +kernel
  rintro ⟨o, ho, hsound⟩
  obtain ⟨e, info, -, -, hall⟩ := hsound _ (Option.some.inj (ho.symm.trans hrun))
  obtain ⟨si, -, hs, -, -⟩ := List.forall₂_cons_right_iff.1 hall
  obtain ⟨r, -, hp, -, -⟩ := List.forall₂_cons_right_iff.1 hs.patches
  exact absurd hp.inside (by decide)

end Bbq.Jit
