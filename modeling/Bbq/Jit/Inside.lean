import Bbq.Jit.Elf

/-!
# Where `parse_elf` reads

One lemma a function: what it reads is in the file if and only if the condition of `Elf.lean` holds (`parseElf_inside`).
-/

namespace Bbq.Jit

/-! ## Accesses -/

theorem isSome_bind {α β : Type} {x : Access α} {k : α → Access β} :
    (x >>= k).isSome = true ↔ x.isSome = true ∧ ∀ a, x = some a → (k a).isSome = true := by
  cases x <;> simp

theorem isSome_mapM {α β : Type} {g : α → Access β} {l : List α} :
    (l.mapM g).isSome = true ↔ ∀ a ∈ l, (g a).isSome = true := by
  induction l with
  | nil => simp
  | cons a l ih =>
    rw [List.mapM_cons, isSome_bind, List.forall_mem_cons, ← ih]
    refine and_congr_right fun ha => ?_
    obtain ⟨b, hb⟩ := Option.isSome_iff_exists.1 ha
    cases l.mapM g <;> simp [hb]

theorem strcmp_isSome {p : List UInt8} {s : Name} : (strcmp p s).isSome = true ↔ ¬ p <+: s := by
  induction p generalizing s with
  | nil => simp [strcmp]
  | cons b bs ih =>
    cases s with
    | nil => simp [strcmp]
    | cons c cs =>
      rw [strcmp, List.cons_prefix_cons]
      split
      case isTrue h => rw [ih]; simp [h]
      case isFalse h => simp [h]

theorem strcmp_true {p : List UInt8} {s : Name} : strcmp p s = some true ↔ s ++ [0] <+: p := by
  induction p generalizing s with
  | nil => cases s <;> simp [strcmp]
  | cons b bs ih =>
    cases s with
    | nil =>
      rw [strcmp, Option.some.injEq, beq_iff_eq, List.nil_append, List.cons_prefix_cons]
      exact ⟨fun h => ⟨h.symm, List.nil_prefix⟩, fun h => h.1.symm⟩
    | cons c cs =>
      rw [strcmp, List.cons_append, List.cons_prefix_cons]
      split
      case isTrue h => rw [ih]; simp [h]
      case isFalse h => simp [Ne.symm h]

theorem cString_isSome {p : List UInt8} : (cString p).isSome = true ↔ 0 ∈ p := by
  unfold cString
  split <;> simp_all

section

variable {f : File} {e : Elf}

theorem File.size_toNat (f : File) : f.size.toNat = f.bytes.length := by
  rw [File.size, UInt64.toNat_ofNat']
  exact Nat.mod_eq_of_lt f.small

theorem File.sub_lt_iff {off : UInt64} (hoff : off ≤ f.size) : f.size - off < 24 ↔ f.bytes.length < off.toNat + 24 := by
  have hsize := f.size_toNat
  rw [UInt64.lt_iff_toNat_lt, UInt64.toNat_sub_of_le _ _ hoff, hsize]
  rw [UInt64.le_iff_toNat_le] at hoff
  change _ < 24 ↔ _
  omega

theorem readEntry_isSome {off : UInt64} : (readEntry f off).isSome = true ↔ off ≤ f.size ∨ f.size - off < 24 := by
  unfold readEntry
  split
  case isTrue h => simp [h]
  case isFalse h =>
    simp only [h, or_false]
    rw [UInt64.le_iff_toNat_le, f.size_toNat]
    constructor
    · intro hsome
      by_contra hout
      rw [if_neg (by omega)] at hsome
      simp at hsome
    · intro hle
      rw [f.sub_lt_iff (by rwa [UInt64.le_iff_toNat_le, f.size_toNat])] at h
      rw [if_pos (by omega)]
      rfl

theorem tableEntry_isSome {s : Shdr} {j : Nat} : (tableEntry f s j).isSome = true ↔ EntryInside f s j := by
  unfold tableEntry EntryInside
  split
  case isTrue h => simp [UInt64.not_le.2 h]
  case isFalse h => rw [readEntry_isSome]; simp [UInt64.not_lt.1 h]

theorem readEntry_eq {off : UInt64} {bs : List UInt8} :
    readEntry f off = some (some bs) ↔ off.toNat + 24 ≤ f.bytes.length ∧ bs = bytesAt f.bytes off.toNat 24 := by
  unfold readEntry
  constructor
  · intro h
    split at h <;> try split at h
    all_goals simp_all
  · rintro ⟨hin, rfl⟩
    have hoff : off ≤ f.size := by rw [UInt64.le_iff_toNat_le, f.size_toNat]; omega
    rw [if_neg (by rw [f.sub_lt_iff hoff]; omega), if_pos hin]

theorem tableEntry_eq {s : Shdr} {j : Nat} {bs : List UInt8} :
    tableEntry f s j = some (some bs) ↔ EntryIs f s j bs := by
  unfold tableEntry EntryIs
  split
  case isTrue h => simp [UInt64.not_le.2 h]
  case isFalse h => rw [readEntry_eq]; simp [UInt64.not_lt.1 h]

theorem elfString_isSome {link name : UInt32} : (elfString f e link name).isSome = true ↔ StringEnds f e link name := by
  unfold elfString StringEnds
  cases hs : e.shdrs[link.toNat]? with
  | none => simp
  | some s =>
    simp only [Option.some.injEq, forall_eq']
    split
    case isTrue h => simp [UInt64.not_lt.2 h]
    case isFalse h => rw [cString_isSome]; simp [UInt64.not_le.1 h]

theorem isText_isSome {names : Option Shdr} {s : Shdr} : (isText f names s).isSome = true ↔ NameEnds f names s := by
  unfold isText NameEnds
  cases hc : compared names s with
  | none => simp
  | some off => simp [strcmp_isSome]

theorem isText_true {names : Option Shdr} {s : Shdr} : isText f names s = some true ↔ IsText f names s := by
  unfold isText IsText
  cases hc : compared names s with
  | none => simp
  | some off => simp [strcmp_true]

theorem findText_isSome {names : Option Shdr} {ss : List Shdr} {i : Nat} :
    (findText f names ss i).isSome = true ↔ NamesEnd f names ss := by
  induction ss generalizing i with
  | nil => simp [findText, NamesEnd]
  | cons s ss ih =>
    rw [findText, isSome_bind, isText_isSome, NamesEnd]
    refine and_congr_right fun hends => ?_
    obtain ⟨b, hb⟩ := Option.isSome_iff_exists.1 (isText_isSome.2 hends)
    rw [← isText_true, hb]
    cases b <;> simp [ih]

/-- An entry that is not read is skipped, and what is done with the others reads inside. -/
theorem entry_isSome {α : Type} {s : Shdr} {j : Nat} {k : Option (List UInt8) → Access α}
    (hskip : (k none).isSome = true) :
    (tableEntry f s j >>= k).isSome = true ↔
      EntryInside f s j ∧ ∀ bs, EntryIs f s j bs → (k (some bs)).isSome = true := by
  rw [isSome_bind, tableEntry_isSome]
  refine and_congr_right fun _ => ⟨fun h bs hbs => h _ (tableEntry_eq.2 hbs), fun h o ho => ?_⟩
  cases o with
  | none => exact hskip
  | some bs => exact h bs (tableEntry_eq.1 ho)

theorem stencilOf_isSome {shndx : Nat} {s : Shdr} {j : Nat} :
    (stencilOf f e shndx (s, j)).isSome = true ↔ StencilInside f e shndx s j := by
  unfold stencilOf
  rw [entry_isSome rfl]
  refine ⟨fun h => ⟨h.1, fun bs hbs hg => ?_⟩, fun h => ⟨h.entry, fun bs hbs => ?_⟩⟩
  · have hk := h.2 bs hbs
    dsimp only at hk
    rw [if_pos hg, isSome_bind] at hk
    exact elfString_isSome.1 hk.1
  · dsimp only
    split
    case isTrue hg => rw [isSome_bind]; exact ⟨elfString_isSome.2 (h.name bs hbs hg), fun _ _ => rfl⟩
    case isFalse => rfl

theorem relaOf_isSome {s : Shdr} {j : Nat} :
    (relaOf f e (s, j)).isSome = true ↔ (s.link.toNat < e.shdrs.length → RelaInside f e s j) := by
  unfold relaOf
  cases hs : e.shdrs[s.link.toNat]? with
  | none => simp [List.getElem?_eq_none_iff.1 hs]
  | some symtab =>
    have hlink : s.link.toNat < e.shdrs.length := (List.getElem?_eq_some_iff.1 hs).1
    simp only [hlink, true_implies]
    rw [entry_isSome rfl]
    constructor
    · rintro ⟨hentry, hread⟩
      refine ⟨hentry, fun bs st hbs hst hlt => ?_, fun bs st sym hbs hst hlt hsym => ?_⟩
      all_goals
        obtain rfl : symtab = st := Option.some.inj (hs.symm.trans hst)
        have hk := hread bs hbs
        dsimp only at hk
        rw [if_neg (by omega), entry_isSome rfl] at hk
      · exact hk.1
      · have hname := hk.2 sym hsym
        rw [isSome_bind] at hname
        exact elfString_isSome.1 hname.1
    · refine fun h => ⟨h.entry, fun bs hbs => ?_⟩
      dsimp only
      split
      case isTrue => rfl
      case isFalse hlt =>
        rw [entry_isSome rfl]
        refine ⟨h.symbol bs symtab hbs hs (by omega), fun sym hsym => ?_⟩
        rw [isSome_bind]
        exact ⟨elfString_isSome.2 (h.name bs symtab sym hbs hs (by omega) hsym), fun _ _ => rfl⟩

theorem forall_entries {p : Shdr → Bool} {P : Shdr → Nat → Prop} :
    (∀ x ∈ entries e p, P x.1 x.2) ↔ ∀ s j, s ∈ e.shdrs → p s = true → j < s.count → P s j := by
  simp only [entries, List.mem_flatMap, List.mem_filter, List.mem_map, List.mem_range]
  constructor
  · exact fun h s j hs hp hj => h (s, j) ⟨s, ⟨hs, hp⟩, j, hj, rfl⟩
  · rintro h x ⟨s, ⟨hs, hp⟩, j, hj, rfl⟩
    exact h s j hs hp hj

/-- **`parse_elf` reads inside of the file if and only if the tables and the names it follows are in it.** -/
theorem parseElf_inside : (parseElf f e).isSome = true ↔ ParsesInside f e := by
  unfold parseElf
  rw [isSome_bind, findText_isSome]
  constructor
  · rintro ⟨hnames, hrest⟩
    refine ⟨hnames, fun shndx text hfind hsize => ?_, fun shndx text hfind hsize => ?_⟩
    all_goals
      have hk := hrest _ hfind
      dsimp only at hk
      rw [if_neg hsize, isSome_bind, isSome_mapM] at hk
    · exact forall_entries.1 fun x hx => stencilOf_isSome.1 (hk.1 x hx)
    · obtain ⟨stencils, hstencils⟩ := Option.isSome_iff_exists.1 (isSome_mapM.2 hk.1)
      have hrelas := hk.2 stencils hstencils
      rw [isSome_bind, isSome_mapM] at hrelas
      exact forall_entries.1 fun x hx => relaOf_isSome.1 (hrelas.1 x hx)
  · rintro ⟨hnames, hsymbols, hrelas⟩
    refine ⟨hnames, fun o ho => ?_⟩
    match o with
    | none => rfl
    | some (shndx, text) =>
      dsimp only
      split
      case isTrue => rfl
      case isFalse hsize =>
        rw [isSome_bind, isSome_mapM]
        refine ⟨fun x hx => stencilOf_isSome.2 (forall_entries.2 (hsymbols shndx text ho hsize) x hx), fun _ _ => ?_⟩
        rw [isSome_bind, isSome_mapM]
        exact ⟨fun x hx => relaOf_isSome.2 (forall_entries.2 (hrelas shndx text ho hsize) x hx), fun _ _ => rfl⟩

end

end Bbq.Jit
