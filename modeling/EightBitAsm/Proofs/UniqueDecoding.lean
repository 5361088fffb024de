import EightBitAsm.Proofs.Jumps
import EightBitAsm.Proofs.LineGrammar

/-! Machine code can be read in one way only. With at most ten far bits the first byte of an
instruction tells its kind and its length whatever the address, so an image falls into instructions
in one way, and two programs with the same image hold the same instructions. -/
namespace EightBitAsm

namespace Transfer

variable {k l : Transfer} {farBits : Nat}

theorem toNat_bytes_stamp (h : k.LeavesAddress) (a : UInt32) (hw : farBits ≤ 10) :
    (k.stamp (Word.ofAddress a farBits)).high.toNat = k.mark + a.toNat % 2 ^ farBits / 256 ∧
    (k.stamp (Word.ofAddress a farBits)).low.toNat = a.toNat % 2 ^ farBits % 256 := by
  have hword := toNat_stamp_ofAddress h a hw
  have hlow := (k.stamp (Word.ofAddress a farBits)).low.toNat_lt
  rw [Word.toNat_eq] at hword
  constructor <;> omega

theorem eq_of_high_eq (hk : k.Legal) (hl : l.Legal) (hw : farBits ≤ 10) {a b : UInt32}
    (h : (k.stamp (Word.ofAddress a farBits)).high = (l.stamp (Word.ofAddress b farBits)).high) :
    k = l ∧ a.toNat % 2 ^ farBits / 256 = b.toNat % 2 ^ farBits / 256 := by
  have hnat := congrArg UInt8.toNat h
  rw [(toNat_bytes_stamp hk.leavesAddress a hw).1,
    (toNat_bytes_stamp hl.leavesAddress b hw).1] at hnat
  have hpow : 2 ^ farBits ≤ 2 ^ 10 := Nat.pow_le_pow_right (by omega) hw
  have ha : a.toNat % 2 ^ farBits < 2 ^ farBits := Nat.mod_lt _ (by positivity)
  have hb : b.toNat % 2 ^ farBits < 2 ^ farBits := Nat.mod_lt _ (by positivity)
  have hkmod := mark_mod_four hk.leavesAddress
  have hlmod := mark_mod_four hl.leavesAddress
  -- Both upper parts are below four, where the marks are zero.
  have hmark : k.mark = l.mark := by omega
  exact ⟨hk.eq_of_mark_eq hl hmark, by omega⟩

theorem high_ne_zero (hk : k.Legal) (hw : farBits ≤ 10) (a : UInt32) :
    (k.stamp (Word.ofAddress a farBits)).high ≠ 0 := by
  intro h
  have hnat := (toNat_bytes_stamp hk.leavesAddress a hw).1
  have hpos := hk.mark_pos
  rw [h, UInt8.toNat_zero] at hnat
  omega

end Transfer

theorem testBit_eq_of_div_eq {m n bits : Nat} (h : m % 2 ^ bits / 256 = n % 2 ^ bits / 256)
    {j : Nat} (hj : 8 ≤ j) (hlt : j < bits) : m.testBit j = n.testBit j := by
  have hbit : ∀ x : Nat, x.testBit j = (x % 2 ^ bits / 2 ^ 8).testBit (j - 8) := by
    intro x
    rw [Nat.testBit_div_two_pow, Nat.testBit_mod_two_pow, Nat.sub_add_cancel hj]
    simp [hlt]
  rw [hbit m, hbit n]
  exact congrArg (Nat.testBit · (j - 8)) h

namespace Operation

variable {farBits : Nat} {o p : Operation UInt32}

/-- Operations with the same code: the same opcode, or the same transfer to addresses that agree
modulo the width. Without the low byte, only the bits from the eighth on are the same. -/
def Agree (farBits : Nat) : Operation UInt32 → Operation UInt32 → Prop
  | implied c, implied d => c = d
  | transfer k a, transfer l b => k = l ∧
    if k.emitLow then a.toNat % 2 ^ farBits = b.toNat % 2 ^ farBits
    else ∀ j, 8 ≤ j → j < farBits → a.toNat.testBit j = b.toNat.testBit j
  | _, _ => False

theorem Agree.encoding_eq (h : o.Agree farBits p) : o.encoding = p.encoding := by
  cases o <;> cases p
  case implied.implied c d => exact congrArg Encoding.implied h
  case transfer.transfer k a l b => exact congrArg Transfer.encoding h.1
  all_goals exact absurd h id

theorem bytes_ne_nil (farBits : Nat) (o : Operation UInt32) : o.bytes farBits ≠ [] := by
  intro h
  have hlen := o.length_bytes farBits
  have hpos := o.encoding.size_pos
  rw [h, List.length_nil] at hlen
  omega

theorem bytes_transfer_append (k : Transfer) (a : UInt32) (r : List UInt8) :
    (transfer k a).bytes farBits ++ r = (k.stamp (Word.ofAddress a farBits)).high ::
      ((if k.emitLow then [(k.stamp (Word.ofAddress a farBits)).low] else []) ++ r) := by
  simp only [bytes]
  cases k.emitLow <;> rfl

theorem agree_of_bytes_append (ho : o.Legal) (hp : p.Legal) (hw : farBits ≤ 10)
    {r s : List UInt8} (h : o.bytes farBits ++ r = p.bytes farBits ++ s) : o.Agree farBits p := by
  cases o with
  | implied c =>
    cases p with
    | implied d =>
      obtain ⟨-, htail⟩ := List.cons.inj h
      exact (List.cons.inj htail).1
    | transfer l b =>
      rw [bytes_transfer_append] at h
      exact absurd (List.cons.inj h).1.symm (Transfer.high_ne_zero hp hw b)
  | transfer k a =>
    rw [bytes_transfer_append] at h
    cases p with
    | implied d => exact absurd (List.cons.inj h).1 (Transfer.high_ne_zero ho hw a)
    | transfer l b =>
      rw [bytes_transfer_append] at h
      obtain ⟨hhigh, htail⟩ := List.cons.inj h
      obtain ⟨rfl, hupper⟩ := Transfer.eq_of_high_eq ho hp hw hhigh
      refine ⟨rfl, ?_⟩
      split
      · next hlow =>
        rw [if_pos hlow, if_pos hlow] at htail
        have hlower := congrArg UInt8.toNat (List.cons.inj htail).1
        rw [(Transfer.toNat_bytes_stamp ho.leavesAddress a hw).2,
          (Transfer.toNat_bytes_stamp ho.leavesAddress b hw).2] at hlower
        rw [← Nat.div_add_mod (a.toNat % 2 ^ farBits) 256, hupper, hlower, Nat.div_add_mod]
      · intro j hj hlt
        exact testBit_eq_of_div_eq hupper hj hlt

theorem append_inj (ho : o.Legal) (hp : p.Legal) (hw : farBits ≤ 10) {r s : List UInt8}
    (h : o.bytes farBits ++ r = p.bytes farBits ++ s) :
    o.bytes farBits = p.bytes farBits ∧ r = s := by
  have hagree := agree_of_bytes_append ho hp hw h
  refine List.append_inj h ?_
  rw [length_bytes, length_bytes, hagree.encoding_eq]

end Operation

namespace Layout

variable {widths : Widths} {x y : Layout}

/-- Two listings with the same bytes are cut into instructions at the same places. -/
theorem agree_of_lists (hw : widths.farBits ≤ 10) {as bs : List Line} {xs ys : List ListingLine}
    (hx : List.Forall₂ (x.Lists InstructionSet.table widths) as xs)
    (hy : List.Forall₂ (y.Lists InstructionSet.table widths) bs ys)
    (h : xs.flatMap (·.bytes) = ys.flatMap (·.bytes)) :
    xs.map (·.bytes) = ys.map (·.bytes) ∧ List.Forall₂ (fun a b => ∃ o p,
      a.operation? InstructionSet.table (x.finalScope widths a) = some o ∧
      b.operation? InstructionSet.table (y.finalScope widths b) = some p ∧
      o.Agree widths.farBits p) as bs := by
  -- Each step cuts one instruction off both images; neither can end before the other.
  induction hx generalizing bs ys with
  | nil =>
    cases hy with
    | nil => exact ⟨rfl, .nil⟩
    | @cons b entry bs ys hb _ =>
      obtain ⟨p, _, hbytes⟩ := hb.bytes
      rw [List.flatMap_cons, hbytes] at h
      exact absurd (List.append_eq_nil_iff.mp h.symm).1 (p.bytes_ne_nil _)
  | @cons a first as xs ha _ ih =>
    obtain ⟨o, ho, hfirst⟩ := ha.bytes
    cases hy with
    | nil =>
      rw [List.flatMap_cons, hfirst] at h
      exact absurd (List.append_eq_nil_iff.mp h).1 (o.bytes_ne_nil _)
    | @cons b second bs ys hb hrest =>
      obtain ⟨p, hp, hsecond⟩ := hb.bytes
      rw [List.flatMap_cons, List.flatMap_cons, hfirst, hsecond] at h
      have hlo := InstructionSet.legal_of_operation? ho
      have hlp := InstructionSet.legal_of_operation? hp
      obtain ⟨hbytes, htail⟩ := Operation.append_inj hlo hlp hw h
      obtain ⟨hmap, hagree⟩ := ih hrest htail
      refine ⟨?_, .cons ⟨o, p, ho, hp, Operation.agree_of_bytes_append hlo hlp hw h⟩ hagree⟩
      rw [List.map_cons, List.map_cons, hfirst, hsecond, hbytes, hmap]

end Layout

namespace Assembly

variable {widths : Widths} {lines : List Line} {out : Assembly}

def operation? (widths : Widths) (out : Assembly) (line : Line) : Option (Operation UInt32) :=
  line.operation? InstructionSet.table (.ofSymbols line.number widths out.labels out.vars)

/-- Two instruction lines with the same code. Their mnemonics are the same, too, but for three
conditional branches that share a condition. -/
structure SameCode (widths : Widths) (x y : Assembly) (a b : Line) : Prop where
  operations : ∃ o p, x.operation? widths a = some o ∧ y.operation? widths b = some p ∧
    o.Agree widths.farBits p
  mnemonics : ∃ m n ms ns, a.statement = some (.instruction m ms) ∧
    b.statement = some (.instruction n ns) ∧
    (m = n ∨ m ∈ ["jno", "jc", "js"] ∧ n ∈ ["jno", "jc", "js"])

theorem Built.operation?_eq {table : MnemonicTable} (h : Built table widths lines out)
    (line : Line) : out.operation? widths line = line.operation? InstructionSet.table
      ((Layout.after table widths lines).finalScope widths line) := by
  rw [operation?, Layout.finalScope, h.labels, h.vars, Layout.vars_after]

theorem Built.address_getElem {table : MnemonicTable} (h : Built table widths lines out) {i : Nat}
    (hi : i < out.listing.length) :
    out.listing[i].address = UInt32.ofNat (ListingLine.total (out.listing.take i)) := by
  have hsplit : out.listing = out.listing.take i ++ out.listing[i] :: out.listing.drop (i + 1) := by
    simp
  rw [Layout.address_of_listingFrom h.listing hsplit, Nat.zero_add]

theorem Built.places_eq {table : MnemonicTable} {lines' : List Line} {out' : Assembly}
    (h : Built table widths lines out) (h' : Built table widths lines' out')
    (hbytes : out.listing.map (·.bytes) = out'.listing.map (·.bytes)) :
    out.listing.map (fun e => (e.address, e.bytes)) =
      out'.listing.map (fun e => (e.address, e.bytes)) := by
  have htotal : ∀ i, ListingLine.total (out.listing.take i) =
      ListingLine.total (out'.listing.take i) := by
    intro i
    have hlengths := congrArg (fun bs => ((bs.take i).map List.length).sum) hbytes
    simpa [ListingLine.total, ← List.map_take, Function.comp_def] using hlengths
  refine List.ext_getElem (by simpa using congrArg List.length hbytes) fun i hi hi' => ?_
  rw [List.length_map] at hi hi'
  have hentry : out.listing[i].bytes = out'.listing[i].bytes := by
    have := congrArg (·[i]?) hbytes
    simpa [hi, hi'] using this
  simp [h.address_getElem hi, h'.address_getElem hi', htotal, hentry]

theorem mnemonic_of_agree {a b : Line} {s t : Scope} {o p : Operation UInt32} {farBits : Nat}
    (ha : a.operation? InstructionSet.table s = some o)
    (hb : b.operation? InstructionSet.table t = some p) (h : o.Agree farBits p)
    (hlowa : ∀ m ms, a.statement = some (.instruction m ms) → Text.lowercase m = m)
    (hlowb : ∀ m ms, b.statement = some (.instruction m ms) → Text.lowercase m = m) :
    ∃ m n ms ns, a.statement = some (.instruction m ms) ∧
      b.statement = some (.instruction n ns) ∧
      (m = n ∨ m ∈ ["jno", "jc", "js"] ∧ n ∈ ["jno", "jc", "js"]) := by
  obtain ⟨m, ms, i, hs, hi, hencoding⟩ := Line.instruction_of_operation? ha
  obtain ⟨n, ns, j, ht, hj, hencoding'⟩ := Line.instruction_of_operation? hb
  refine ⟨m, n, ms, ns, hs, ht, ?_⟩
  obtain ⟨himem, hname⟩ := MnemonicTable.mem_of_lookup? InstructionSet.ofFamilies_families hi
  obtain ⟨hjmem, hname'⟩ := MnemonicTable.mem_of_lookup? InstructionSet.ofFamilies_families hj
  rw [hlowa m ms hs, or_self] at hname
  rw [hlowb n ns ht, or_self] at hname'
  rw [← hname, ← hname']
  exact InstructionSet.mnemonic_of_encoding i himem j hjmem
    (by rw [← hencoding, h.encoding_eq, hencoding'])

theorem Built.numbers_eq {table : MnemonicTable} (h : Built table widths lines out) :
    (Program.instructions lines).map (·.number) = out.listing.map (·.line) := by
  rw [← List.forall₂_eq_eq_eq, List.forall₂_map_left_iff, List.forall₂_map_right_iff]
  exact h.lists.imp fun line entry hlists => hlists.number.symm

/-- Two texts with the same image have the same instructions at the same places. -/
theorem sameCode_of_bytes_eq {text₁ text₂ : String} {out₁ out₂ : Assembly}
    (hw : widths.farBits ≤ 10) (h₁ : assemble InstructionSet.table widths text₁ = .ok out₁)
    (h₂ : assemble InstructionSet.table widths text₂ = .ok out₂)
    (hbytes : out₁.bytes = out₂.bytes) :
    out₁.listing.map (fun e => (e.address, e.bytes)) =
      out₂.listing.map (fun e => (e.address, e.bytes)) ∧
    ∃ lines₁ lines₂, Program.parse text₁ = .ok lines₁ ∧ Program.parse text₂ = .ok lines₂ ∧
      (Program.instructions lines₁).map (·.number) = out₁.listing.map (·.line) ∧
      (Program.instructions lines₂).map (·.number) = out₂.listing.map (·.line) ∧
      List.Forall₂ (SameCode widths out₁ out₂) (Program.instructions lines₁)
        (Program.instructions lines₂) := by
  obtain ⟨lines₁, hp₁, hb₁⟩ := built_of_assemble h₁
  obtain ⟨lines₂, hp₂, hb₂⟩ := built_of_assemble h₂
  rw [hb₁.bytes, hb₂.bytes] at hbytes
  obtain ⟨hmap, hagree⟩ := Layout.agree_of_lists hw hb₁.lists hb₂.lists hbytes
  refine ⟨hb₁.places_eq hb₂ hmap, lines₁, lines₂, hp₁, hp₂, hb₁.numbers_eq, hb₂.numbers_eq, ?_⟩
  refine List.forall₂_iff_get.mpr ⟨hagree.length_eq, fun i hi₁ hi₂ => ?_⟩
  obtain ⟨o, p, ho, hp, h⟩ := hagree.get hi₁ hi₂
  have hmem₁ := List.mem_of_mem_filter (List.get_mem (Program.instructions lines₁) ⟨i, hi₁⟩)
  have hmem₂ := List.mem_of_mem_filter (List.get_mem (Program.instructions lines₂) ⟨i, hi₂⟩)
  refine ⟨⟨o, p, ?_, ?_, h⟩, mnemonic_of_agree ho hp h ?_ ?_⟩
  · rw [hb₁.operation?_eq, ho]
  · rw [hb₂.operation?_eq, hp]
  · intro m ms hs
    exact Program.lowercase_of_parse hp₁ hmem₁ hs
  · intro m ms hs
    exact Program.lowercase_of_parse hp₂ hmem₂ hs

theorem sameCode_label_literal : ∃ out₁ out₂,
    assemble InstructionSet.table {} "top: int 5\nJC top\n" = .ok out₁ ∧
    assemble InstructionSet.table {} "int 0 ; again\njs 0\n" = .ok out₂ ∧
    out₁.bytes = out₂.bytes ∧
    out₁.listing.map (fun e => (e.address, e.bytes)) =
      out₂.listing.map (fun e => (e.address, e.bytes)) ∧
    ∃ lines₁ lines₂, Program.parse "top: int 5\nJC top\n" = .ok lines₁ ∧
      Program.parse "int 0 ; again\njs 0\n" = .ok lines₂ ∧
      (Program.instructions lines₁).map (·.number) = out₁.listing.map (·.line) ∧
      (Program.instructions lines₂).map (·.number) = out₂.listing.map (·.line) ∧
      List.Forall₂ (SameCode {} out₁ out₂) (Program.instructions lines₁)
        (Program.instructions lines₂) := by
  have h₁ : assemble InstructionSet.table {} "top: int 5\nJC top\n" = .ok
      { bytes := [0x48, 0x38, 0]
        listing := [⟨1, 0, [0x48], "top: int 5"⟩, ⟨2, 1, [0x38, 0], "JC top"⟩]
        labels := ⟨[("top", 0)], by decide⟩
        vars := .empty } := by
    decide +kernel
  have h₂ : assemble InstructionSet.table {} "int 0 ; again\njs 0\n" = .ok
      { bytes := [0x48, 0x38, 0]
        listing := [⟨1, 0, [0x48], "int 0"⟩, ⟨2, 1, [0x38, 0], "js 0"⟩]
        labels := .empty
        vars := .empty } := by
    decide +kernel
  exact ⟨_, _, h₁, h₂, rfl, sameCode_of_bytes_eq (by decide) h₁ h₂ rfl⟩

end Assembly

end EightBitAsm
