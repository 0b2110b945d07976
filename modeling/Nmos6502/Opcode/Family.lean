/-! The instruction families: one for each mnemonic, documented and undocumented. -/
namespace Nmos6502

inductive Family where
  | adc | sbc | and | ora | eor | cmp | cpx | cpy | bit
  | bcc | bcs | beq | bne | bmi | bpl | bvc | bvs
  | asl | lsr | rol | ror
  | lda | ldx | ldy | sta | stx | sty
  | inc | dec | inx | iny | dex | dey
  | brk | jmp | jsr | rts | rti | nop
  | pha | php | pla | plp
  | clc | sec | cli | sei | cld | sed | clv
  | tax | tay | txa | tya | tsx | txs
  | slo | rla | sre | rra | dcp | isc | sax | lax
  | anc | alr | arr | ane | lxa | sbx
  | las | sha | shx | shy | tas
deriving DecidableEq, Repr

namespace Family

/-- Every family: arithmetic and logic, branches, shifts, loads and stores, counting,
control, stack, flags, transfers, and last the undocumented ones. -/
def all : List Family :=
  [adc, sbc, and, ora, eor, cmp, cpx, cpy, bit,
    bcc, bcs, beq, bne, bmi, bpl, bvc, bvs,
    asl, lsr, rol, ror,
    lda, ldx, ldy, sta, stx, sty,
    inc, dec, inx, iny, dex, dey,
    brk, jmp, jsr, rts, rti, nop,
    pha, php, pla, plp,
    clc, sec, cli, sei, cld, sed, clv,
    tax, tay, txa, tya, tsx, txs,
    slo, rla, sre, rra, dcp, isc, sax, lax,
    anc, alr, arr, ane, lxa, sbx,
    las, sha, shx, shy, tas]

theorem mem_all (family : Family) : family ∈ all := by
  cases family <;> decide

def mnemonic : Family → String
  | adc => "ADC"
  | sbc => "SBC"
  | and => "AND"
  | ora => "ORA"
  | eor => "EOR"
  | cmp => "CMP"
  | cpx => "CPX"
  | cpy => "CPY"
  | bit => "BIT"
  | bcc => "BCC"
  | bcs => "BCS"
  | beq => "BEQ"
  | bne => "BNE"
  | bmi => "BMI"
  | bpl => "BPL"
  | bvc => "BVC"
  | bvs => "BVS"
  | asl => "ASL"
  | lsr => "LSR"
  | rol => "ROL"
  | ror => "ROR"
  | lda => "LDA"
  | ldx => "LDX"
  | ldy => "LDY"
  | sta => "STA"
  | stx => "STX"
  | sty => "STY"
  | inc => "INC"
  | dec => "DEC"
  | inx => "INX"
  | iny => "INY"
  | dex => "DEX"
  | dey => "DEY"
  | brk => "BRK"
  | jmp => "JMP"
  | jsr => "JSR"
  | rts => "RTS"
  | rti => "RTI"
  | nop => "NOP"
  | pha => "PHA"
  | php => "PHP"
  | pla => "PLA"
  | plp => "PLP"
  | clc => "CLC"
  | sec => "SEC"
  | cli => "CLI"
  | sei => "SEI"
  | cld => "CLD"
  | sed => "SED"
  | clv => "CLV"
  | tax => "TAX"
  | tay => "TAY"
  | txa => "TXA"
  | tya => "TYA"
  | tsx => "TSX"
  | txs => "TXS"
  | slo => "SLO"
  | rla => "RLA"
  | sre => "SRE"
  | rra => "RRA"
  | dcp => "DCP"
  | isc => "ISC"
  | sax => "SAX"
  | lax => "LAX"
  | anc => "ANC"
  | alr => "ALR"
  | arr => "ARR"
  | ane => "ANE"
  | lxa => "LXA"
  | sbx => "SBX"
  | las => "LAS"
  | sha => "SHA"
  | shx => "SHX"
  | shy => "SHY"
  | tas => "TAS"

end Family

end Nmos6502
