import EightBitAsm.InstructionSet
import EightBitAsm.Proofs.Image

/-! What a successful assembly consists of, and the agreement of its two passes: the addresses of
the first pass are the places at which the second pass puts its bytes. -/
namespace EightBitAsm

theorem Encoding.size_pos (encoding : Encoding) : 0 < encoding.size := by
  unfold size
  split <;> omega

theorem Widths.capacity_eq (widths : Widths) : widths.capacity = 2 ^ min widths.farBits 32 := by
  have hpos : 0 < 2 ^ min widths.farBits 32 := Nat.two_pow_pos _
  simp only [capacity, max, maxAddress, Nat.one_shiftLeft]
  omega

theorem Widths.capacity_le (widths : Widths) : widths.capacity ≤ 2 ^ 32 := by
  rw [capacity_eq]
  exact Nat.pow_le_pow_right (by omega) (by omega)

section Correspondence

variable {α β : Type} {r : α → β → Prop} {xs : List α} {ys : List β}

theorem exists_left_of_forall₂ (h : List.Forall₂ r xs ys) {y : β} (hy : y ∈ ys) :
    ∃ x ∈ xs, r x y := by
  induction h with
  | nil => simp at hy
  | cons hhead _ ih =>
    rcases List.mem_cons.mp hy with rfl | hy
    · exact ⟨_, List.mem_cons_self, hhead⟩
    · obtain ⟨x, hx, hr⟩ := ih hy
      exact ⟨x, List.mem_cons_of_mem _ hx, hr⟩

end Correspondence

namespace ListingLine

@[simp] theorem total_nil : total [] = 0 := rfl

@[simp] theorem total_cons (entry : ListingLine) (entries : List ListingLine) :
    total (entry :: entries) = entry.bytes.length + total entries := rfl

@[simp] theorem total_append (entries rest : List ListingLine) :
    total (entries ++ rest) = total entries + total rest := by
  simp [total]

theorem length_flatMap_bytes (entries : List ListingLine) :
    (entries.flatMap (·.bytes)).length = total entries := by
  simp [total, List.length_flatMap]

end ListingLine

namespace Program

def Defines (table : MnemonicTable) (lines : List Line) (name : String) (a : UInt32) : Prop :=
  ∃ before line rest, lines = before ++ line :: rest ∧ line.label = some name ∧
    a = UInt32.ofNat (size table before)

theorem lineSize_of_not_isInstruction {table : MnemonicTable} {line : Line}
    (h : line.isInstruction ≠ true) : lineSize table line = 0 := by
  unfold lineSize
  split
  · next mnemonic operands hs => exact absurd (Line.isInstruction_iff.mpr ⟨_, _, hs⟩) h
  · rfl

theorem size_instructions (table : MnemonicTable) (lines : List Line) :
    size table (instructions lines) = size table lines := by
  induction lines with
  | nil => rfl
  | cons line lines ih =>
    unfold instructions at ih ⊢
    by_cases hi : line.isInstruction = true
    · rw [List.filter_cons_of_pos hi, size_cons, size_cons, ih]
    · rw [List.filter_cons_of_neg hi, size_cons, lineSize_of_not_isInstruction hi, ih, Nat.zero_add]

theorem number_lt_of_split {lines before rest : List Line} {line : Line}
    (h : lines.Pairwise fun a b => a.number < b.number) (hlines : lines = before ++ line :: rest) :
    (∀ l ∈ before, l.number < line.number) ∧ ∀ l ∈ rest, line.number < l.number := by
  rw [hlines, List.pairwise_append, List.pairwise_cons] at h
  obtain ⟨_, ⟨hrest, _⟩, hbefore⟩ := h
  exact ⟨fun l hl => hbefore l hl line List.mem_cons_self, hrest⟩

/-- In a program read from a text, the lines with smaller numbers are the lines before. -/
theorem filter_number_lt {lines before rest : List Line} {line : Line}
    (h : lines.Pairwise fun a b => a.number < b.number) (hlines : lines = before ++ line :: rest) :
    lines.filter (fun l => l.number < line.number) = before := by
  obtain ⟨hbefore, hrest⟩ := number_lt_of_split h hlines
  have hleft : before.filter (fun l => l.number < line.number) = before := by
    rw [List.filter_eq_self]
    intro l hl
    simpa using hbefore l hl
  have hright : rest.filter (fun l => l.number < line.number) = [] := by
    rw [List.filter_eq_nil_iff]
    intro l hl
    simpa using Nat.le_of_lt (hrest l hl)
  rw [hlines, List.filter_append, hleft, List.filter_cons_of_neg (by simp), hright,
    List.append_nil]

theorem filter_number_eq {lines : List Line} {line : Line}
    (h : lines.Pairwise fun a b => a.number < b.number) (hline : line ∈ lines) :
    lines.filter (fun l => l.number = line.number) = [line] := by
  obtain ⟨before, rest, hlines⟩ := List.append_of_mem hline
  obtain ⟨hbefore, hrest⟩ := number_lt_of_split h hlines
  have hleft : before.filter (fun l => l.number = line.number) = [] := by
    rw [List.filter_eq_nil_iff]
    intro l hl
    simpa using Nat.ne_of_lt (hbefore l hl)
  have hright : rest.filter (fun l => l.number = line.number) = [] := by
    rw [List.filter_eq_nil_iff]
    intro l hl
    simpa using Nat.ne_of_gt (hrest l hl)
  rw [hlines, List.filter_append, hleft, List.filter_cons_of_pos (by simp), hright,
    List.nil_append]

end Program

namespace Layout

variable {table : MnemonicTable} {widths : Widths} {layout : Layout}

theorem length_bytes_eq_lineSize {line : Line} {entry : ListingLine}
    (h : layout.Lists table widths line entry) :
    entry.bytes.length = Program.lineSize table line := by
  obtain ⟨mnemonic, operands, i, hs, hi, hlen⟩ := length_bytes_of_lists h
  simp [Program.lineSize, hs, hi, hlen]

theorem total_filter_of_forall₂ {instrs : List Line} {listing : List ListingLine}
    (h : List.Forall₂ (layout.Lists table widths) instrs listing) (chosen : Nat → Bool) :
    ListingLine.total (listing.filter fun entry => chosen entry.line) =
      Program.size table (instrs.filter fun line => chosen line.number) := by
  induction h with
  | nil => rfl
  | @cons line entry instrs listing hhead _ ih =>
    have hlen := length_bytes_eq_lineSize hhead
    cases hc : chosen line.number <;> simp [hhead.number, hc, hlen, ih]

theorem total_filter_of_lists {lines : List Line} {listing : List ListingLine}
    (h : List.Forall₂ (layout.Lists table widths) (Program.instructions lines) listing)
    (chosen : Nat → Bool) :
    ListingLine.total (listing.filter fun entry => chosen entry.line) =
      Program.size table (lines.filter fun line => chosen line.number) := by
  rw [total_filter_of_forall₂ h, ← Program.size_instructions table (lines.filter _),
    Program.instructions, Program.instructions, List.filter_filter, List.filter_filter]
  simp only [Bool.and_comm]

end Layout

namespace Assembly

variable {table : MnemonicTable} {widths : Widths} {lines : List Line} {out : Assembly}

/-- An assembly as the closed form of the first pass and the listing of the second. -/
structure Built (table : MnemonicTable) (widths : Widths) (lines : List Line) (out : Assembly) :
    Prop where
  faultless : Faultless (Program.Misplaced table widths) lines
  fits : Program.size table lines ≤ widths.capacity
  listing : (Layout.after table widths lines).listingFrom table widths 0 lines = .ok out.listing
  bytes : out.bytes = out.listing.flatMap (·.bytes)
  labels : out.labels = (Layout.after table widths lines).labels
  vars : out.vars = Program.vars widths lines

theorem ofLines_eq_ok_iff :
    ofLines table widths lines = .ok out ↔ Built table widths lines out := by
  rw [ofLines_eq]
  constructor
  · intro h
    obtain ⟨layout, hlayout, h⟩ := bind_eq_ok_iff.1 h
    obtain ⟨hclean, rfl⟩ := Layout.ofLines_eq_ok_iff.mp hlayout
    obtain ⟨_, hsize, h⟩ := bind_eq_ok_iff.1 h
    obtain ⟨listing, hlisting, h⟩ := bind_eq_ok_iff.1 h
    cases h
    have hfits : Program.size table lines ≤ widths.capacity := by
      rwa [Layout.checkSize_eq_ok_iff, Layout.size_after] at hsize
    exact ⟨hclean, hfits, hlisting, rfl, rfl, Layout.vars_after lines⟩
  · rintro ⟨hclean, hfits, hlisting, hbytes, hlabels, hvars⟩
    have hsize : (Layout.after table widths lines).checkSize widths = .ok () := by
      rwa [Layout.checkSize_eq_ok_iff, Layout.size_after]
    rw [Layout.ofLines_eq_ok_iff.mpr ⟨hclean, rfl⟩, ok_bind, hsize, ok_bind, hlisting, ok_bind]
    cases out
    simp_all [pure, Except.pure]

theorem built_of_assemble {text : String} (h : assemble table widths text = .ok out) :
    ∃ lines, Program.parse text = .ok lines ∧ Built table widths lines out := by
  unfold assemble at h
  split at h
  · next lines hp => exact ⟨lines, hp, ofLines_eq_ok_iff.mp h⟩
  · cases h

namespace Built

theorem lists (h : Built table widths lines out) :
    List.Forall₂ ((Layout.after table widths lines).Lists table widths)
      (Program.instructions lines) out.listing :=
  Layout.lists_of_listingFrom h.listing

theorem total_listing (h : Built table widths lines out) :
    ListingLine.total out.listing = Program.size table lines := by
  have := Layout.total_filter_of_lists h.lists fun _ => true
  simpa using this

theorem length_bytes (h : Built table widths lines out) :
    out.bytes.length = Program.size table lines := by
  rw [h.bytes, ListingLine.length_flatMap_bytes, h.total_listing]

theorem length_pos (h : Built table widths lines out) {entry : ListingLine}
    (hentry : entry ∈ out.listing) : 0 < entry.bytes.length := by
  obtain ⟨line, _, hlists⟩ := exists_left_of_forall₂ h.lists hentry
  obtain ⟨_, _, i, _, _, hlen⟩ := Layout.length_bytes_of_lists hlists
  rw [hlen]
  exact i.encoding.size_pos

theorem address_toNat (h : Built table widths lines out) {before after : List ListingLine}
    {entry : ListingLine} (hx : out.listing = before ++ entry :: after) :
    entry.address.toNat = ListingLine.total before := by
  have hpos : 0 < entry.bytes.length := h.length_pos (by simp [hx])
  have htotal := h.total_listing
  rw [hx, ListingLine.total_append, ListingLine.total_cons] at htotal
  have hlt : ListingLine.total before < 2 ^ 32 := by
    have := h.fits
    have := widths.capacity_le
    omega
  rw [Layout.address_of_listingFrom h.listing hx, Nat.zero_add, UInt32.toNat_ofNat',
    Nat.mod_eq_of_lt hlt]

theorem mem_labels_iff (h : Built table widths lines out) {name : String} :
    name ∈ out.labels.names ↔ ∃ line ∈ lines, line.label = some name := by
  rw [NameMap.mem_names_iff, h.labels, Layout.contains_labels_after, Program.mem_labelNames]

theorem find?_label (h : Built table widths lines out)
    (hnumbers : lines.Pairwise fun a b => a.number < b.number) {line : Line} (hline : line ∈ lines)
    {name : String} (hl : line.label = some name) :
    out.labels.find? name = some (UInt32.ofNat
      (ListingLine.total (out.listing.filter fun entry => entry.line < line.number))) := by
  obtain ⟨before, rest, hlines⟩ := List.append_of_mem hline
  have htotal := Layout.total_filter_of_lists h.lists fun n => n < line.number
  rw [htotal, Program.filter_number_lt hnumbers hlines, h.labels,
    Layout.find?_labels_after h.faultless hlines hl]

theorem find?_labels_iff (h : Built table widths lines out) {name : String} {a : UInt32} :
    out.labels.find? name = some a ↔ Program.Defines table lines name a := by
  rw [h.labels]
  constructor
  · intro hfind
    obtain ⟨line, hline, hl⟩ :=
      Program.mem_labelNames.mp (Layout.mem_labelNames_of_find? hfind)
    obtain ⟨before, rest, hlines⟩ := List.append_of_mem hline
    rw [Layout.find?_labels_after h.faultless hlines hl] at hfind
    exact ⟨before, line, rest, hlines, hl, (Option.some.inj hfind).symm⟩
  · rintro ⟨before, line, rest, hlines, hl, rfl⟩
    exact Layout.find?_labels_after h.faultless hlines hl

theorem label_le (h : Built table widths lines out) {name : String} {address : UInt32}
    (hfind : out.labels.find? name = some address) :
    address.toNat ≤ Program.size table lines := by
  obtain ⟨before, line, rest, hlines, -, rfl⟩ := h.find?_labels_iff.mp hfind
  rw [UInt32.toNat_ofNat', hlines, Program.size_append]
  exact Nat.le_trans (Nat.mod_le _ _) (Nat.le_add_right _ _)

theorem entry_of_line (h : Built table widths lines out)
    (hnumbers : lines.Pairwise fun a b => a.number < b.number) {line : Line} (hline : line ∈ lines)
    (hi : line.isInstruction = true) :
    ∃ entry, out.listing.filter (fun e => e.line = line.number) = [entry] ∧
      (Layout.after table widths lines).Lists table widths line entry := by
  have hfilter : List.Forall₂ ((Layout.after table widths lines).Lists table widths)
      ((Program.instructions lines).filter fun l => l.number = line.number)
      (out.listing.filter fun e => e.line = line.number) := by
    refine List.rel_filter ?_ h.lists
    intro l entry hlists
    simp [hlists.number]
  have hmem : line ∈ Program.instructions lines := List.mem_filter.mpr ⟨hline, hi⟩
  have hline : (Program.instructions lines).filter (fun l => l.number = line.number) = [line] :=
    Program.filter_number_eq (hnumbers.filter _) hmem
  rw [hline] at hfilter
  obtain ⟨entry, rest, hlists, hrest, hentries⟩ := List.forall₂_cons_left_iff.mp hfilter
  cases hrest
  exact ⟨entry, hentries, hlists⟩

end Built

structure PassesAgree (table : MnemonicTable) (widths : Widths) (lines : List Line)
    (out : Assembly) : Prop where
  /-- There is one listing line for each instruction line, in order, as long as the encoding that
  the mnemonic stands for. -/
  entries : List.Forall₂ (fun line entry => entry.line = line.number ∧ entry.text = line.text ∧
    ∃ mnemonic operands i, line.statement = some (.instruction mnemonic operands) ∧
      table.lookup? mnemonic = some i ∧ entry.bytes.length = i.encoding.size)
    (Program.instructions lines) out.listing
  addresses : ∀ before entry after, out.listing = before ++ entry :: after →
    entry.address.toNat = ListingLine.total before
  image : out.bytes = out.listing.flatMap (·.bytes)
  label_names : ∀ name, name ∈ out.labels.names ↔ ∃ line ∈ lines, line.label = some name
  label_addresses : ∀ line ∈ lines, ∀ name, line.label = some name → ∃ address,
    out.labels.find? name = some address ∧ address.toNat =
      ListingLine.total (out.listing.filter fun entry => entry.line < line.number) % 2 ^ 32
  fits : out.bytes.length ≤ widths.max .far + 1

/-- Whatever the text, the table and the widths, a successful assembly has one layout. -/
theorem passesAgree_of_assemble {text : String} (h : assemble table widths text = .ok out) :
    ∃ lines, Program.parse text = .ok lines ∧ PassesAgree table widths lines out := by
  obtain ⟨lines, hp, hbuilt⟩ := built_of_assemble h
  refine ⟨lines, hp, ?_, ?_, hbuilt.bytes, ?_, ?_, ?_⟩
  · refine hbuilt.lists.imp fun line entry hlists => ?_
    exact ⟨hlists.number, hlists.text, Layout.length_bytes_of_lists hlists⟩
  · intro before entry after hx
    exact hbuilt.address_toNat hx
  · intro name
    exact hbuilt.mem_labels_iff
  · intro line hline name hl
    refine ⟨_, hbuilt.find?_label (Program.pairwise_number_of_parse hp) hline hl, ?_⟩
    exact UInt32.toNat_ofNat'
  · rw [hbuilt.length_bytes]
    exact hbuilt.fits

/-- References in both directions, and a label right behind an instruction of one byte. -/
theorem passesAgree_jump_interrupt_cycle : ∃ out,
    assemble InstructionSet.table {} "top: jmp end\nint 0\nend: djrnz R1, top\n" = .ok out ∧
    out.bytes = [0x40, 3, 0x48, 0xA0, 0] ∧ ∃ lines,
      Program.parse "top: jmp end\nint 0\nend: djrnz R1, top\n" = .ok lines ∧
      PassesAgree InstructionSet.table {} lines out := by
  have h : assemble InstructionSet.table {} "top: jmp end\nint 0\nend: djrnz R1, top\n" = .ok
      { bytes := [0x40, 3, 0x48, 0xA0, 0]
        listing := [⟨1, 0, [0x40, 3], "top: jmp end"⟩, ⟨2, 2, [0x48], "int 0"⟩,
          ⟨3, 3, [0xA0, 0], "end: djrnz R1, top"⟩]
        labels := ⟨[("end", 3), ("top", 0)], by decide⟩
        vars := .empty } := by
    decide +kernel
  exact ⟨_, h, rfl, passesAgree_of_assemble h⟩

end Assembly

end EightBitAsm
