import Cartridge.Text.Blank
import Cartridge.Text.Cut

/-!
The documented instructions of the 6502 and the registers a program can name.

Names are read without regard to case. A register's name may stand between blanks, a mnemonic's
may not.
-/

namespace Cartridge.Asm

/-- Why a piece of assembly text was refused. Each cause carries the text as it was given. -/
inductive ReadError where
  | mnemonic (text : String)
  | register (text : String)
  | value (text : String)
  deriving DecidableEq, Repr

def ReadError.message : ReadError → String
  | .mnemonic text => s!"Unknown mnemonic `{text}`"
  | .register text => s!"Unknown register `{text}`"
  | .value text => s!"Bad operand value `{text}`"

inductive Mnemonic where
  | adc | and | asl | bcc | bcs | beq | bit | bmi | bne | bpl | brk | bvc | bvs | clc | cld
  | cli | clv | cmp | cpx | cpy | dec | dex | dey | eor | inc | inx | iny | jmp | jsr | lda
  | ldx | ldy | lsr | nop | ora | pha | php | pla | plp | rol | ror | rti | rts | sbc | sec
  | sed | sei | sta | stx | sty | tax | tay | tsx | txa | txs | tya
  deriving DecidableEq, Repr

namespace Mnemonic

def all : List Mnemonic :=
  [
    .adc, .and, .asl, .bcc, .bcs, .beq, .bit, .bmi, .bne, .bpl, .brk, .bvc, .bvs, .clc, .cld,
    .cli, .clv, .cmp, .cpx, .cpy, .dec, .dex, .dey, .eor, .inc, .inx, .iny, .jmp, .jsr, .lda,
    .ldx, .ldy, .lsr, .nop, .ora, .pha, .php, .pla, .plp, .rol, .ror, .rti, .rts, .sbc, .sec,
    .sed, .sei, .sta, .stx, .sty, .tax, .tay, .tsx, .txa, .txs, .tya
  ]

def name : Mnemonic → String
  | .adc => "ADC"
  | .and => "AND"
  | .asl => "ASL"
  | .bcc => "BCC"
  | .bcs => "BCS"
  | .beq => "BEQ"
  | .bit => "BIT"
  | .bmi => "BMI"
  | .bne => "BNE"
  | .bpl => "BPL"
  | .brk => "BRK"
  | .bvc => "BVC"
  | .bvs => "BVS"
  | .clc => "CLC"
  | .cld => "CLD"
  | .cli => "CLI"
  | .clv => "CLV"
  | .cmp => "CMP"
  | .cpx => "CPX"
  | .cpy => "CPY"
  | .dec => "DEC"
  | .dex => "DEX"
  | .dey => "DEY"
  | .eor => "EOR"
  | .inc => "INC"
  | .inx => "INX"
  | .iny => "INY"
  | .jmp => "JMP"
  | .jsr => "JSR"
  | .lda => "LDA"
  | .ldx => "LDX"
  | .ldy => "LDY"
  | .lsr => "LSR"
  | .nop => "NOP"
  | .ora => "ORA"
  | .pha => "PHA"
  | .php => "PHP"
  | .pla => "PLA"
  | .plp => "PLP"
  | .rol => "ROL"
  | .ror => "ROR"
  | .rti => "RTI"
  | .rts => "RTS"
  | .sbc => "SBC"
  | .sec => "SEC"
  | .sed => "SED"
  | .sei => "SEI"
  | .sta => "STA"
  | .stx => "STX"
  | .sty => "STY"
  | .tax => "TAX"
  | .tay => "TAY"
  | .tsx => "TSX"
  | .txa => "TXA"
  | .txs => "TXS"
  | .tya => "TYA"

def read (text : List Char) : Except ReadError Mnemonic :=
  match all.find? fun mnemonic => mnemonic.name.toList == Text.upper text with
  | some mnemonic => .ok mnemonic
  | none => .error (.mnemonic (String.ofList text))

end Mnemonic

inductive Register where
  | a | x | y
  deriving DecidableEq, Repr

namespace Register

def all : List Register := [.a, .x, .y]

def name : Register → String
  | .a => "A"
  | .x => "X"
  | .y => "Y"

def transfer? : Register → Option Mnemonic
  | .a => none
  | .x => some .tax
  | .y => some .tay

def read (text : List Char) : Except ReadError Register :=
  match all.find? fun register => register.name.toList == Text.upper (Text.trim text) with
  | some register => .ok register
  | none => .error (.register (String.ofList text))

end Register

end Cartridge.Asm
