import Cartridge.Emit.Fragment
import Cartridge.Emit.Splice

/-!
Code for calls: intrinsics that stand for the call, calls executed by the compiler, and ordinary
calls, which pass their arguments in the slots of the callee's parameters.
-/

namespace Cartridge.Emit

open Asm (Line Symbol Value)
open Code (EvalStack)
open Program (Fault Subroutine)

namespace Site

/-- Moves arguments into the slots of the parameters, the last one first. -/
def storeArguments (site : Site) (index : Nat) (callee : Subroutine) :
    List (ValueType × Nat) → EvalStack → Except Fault (List Line × EvalStack)
  | [], stack => .ok ([], stack)
  | (type, n) :: rest, stack => do
    let (_, stack) ← site.pop index stack
    let slot := UInt16.ofNat n
    match site.memory.argument? callee.id slot with
    | none => .error (.badSlot callee.fullName "parameter" slot)
    | some allocation =>
      let (code, stack) ← site.storeArguments index callee rest stack
      return (storeLines allocation.symbol type.size ++ code, stack)

def constantBytes? (body : List Code.Instruction) : Option (List UInt8) :=
  body.mapM fun instruction =>
    match instruction.operand with
    | .constant value =>
      if 0 ≤ value ∧ value ≤ 0xFF then some (UInt8.ofNat value.toNat) else none
    | _ => none

def evaluate (site : Site) (call labels : Nat) (stack : EvalStack) (callee : Subroutine)
    (evaluator : Source.Evaluator) (bytes : List UInt8) : Except Fault Fragment :=
  match evaluator, bytes with
  | .convert, [byte] =>
    if callee.returns.size ≠ 1 then
      site.unsupported call (.wideConversion callee.fullName callee.returns.name)
    else
      .ok { code := [.immediate .lda byte, .op .pha]
            stack := .constant [byte] callee.returns :: stack
            labels }
  | .convert, _ =>
    .error (.nonConstantArgument site.subroutine.fullName callee.fullName call
      callee.parameters.length)
  | .data, bytes =>
    let table := site.numberedLabel "Data" (labels + 1)
    .ok { code := [.on .lda .immediate (.lowByte table), .op .pha,
            .on .lda .immediate (.highByte table), .op .pha]
          data := [.label table, .directive (.bytes bytes)]
          stack := .pointer .byte false :: stack
          labels := labels + 1 }

def execute (site : Site) (start call labels : Nat) (stack : EvalStack) :
    Except Fault Fragment :=
  let body := site.subroutine.instructions
  match body[call]?.bind Code.Instruction.callee? with
  | none => site.unsupported call .notCall
  | some id =>
    match site.types.subroutine? id with
    | none => site.unsupported call .notCall
    | some callee =>
      match callee.intrinsic? with
      | some (.compileTime evaluator) =>
        let refused : Fault := .nonConstantArgument site.subroutine.fullName callee.fullName call
          callee.parameters.length
        match constantBytes? ((body.drop start).take (call - start)) with
        | none => .error refused
        | some bytes =>
          if bytes.length ≠ callee.parameters.length then .error refused
          else site.evaluate call labels stack callee evaluator bytes
      | _ => site.unsupported call (.notCompileTime callee.fullName)

def transfer (site : Site) (labels : Nat) (stack : EvalStack) (callee : Subroutine) :
    Except Fault Fragment :=
  match callee.intrinsic? with
  | some .alwaysInline =>
    match callee.body? with
    | none => .error (.inlineOrder site.subroutine.fullName callee.fullName)
    | some body =>
      let copy := splice (site.numberedLabel "Inline" (labels + 1)) body
      .ok { code := copy.code, data := copy.data, stack, labels := labels + 1 }
  | _ => .ok { code := [.direct .jsr callee.label], stack, labels }

def callBody (site : Site) (index labels : Nat) (stack : EvalStack) (callee : Subroutine) :
    Except Fault Fragment := do
  if 1 < callee.returns.size then
    site.unsupported index (.wideResult callee.fullName callee.returns.name)
  else
    let (passing, stack) ←
      site.storeArguments index callee callee.parameters.zipIdx.reverse stack
    let fragment ← site.transfer labels stack callee
    if callee.returns.isVoid then
      return { fragment with code := passing ++ fragment.code }
    else
      return { fragment with
        code := passing ++ fragment.code ++ [.op .pha]
        stack := callee.returns :: stack }

def call (site : Site) (index labels : Nat) (stack : EvalStack) (callee : Subroutine) :
    Except Fault Fragment :=
  match callee.intrinsic? with
  | some (.storeToSymbol symbol true) => .ok { code := [.direct .sta symbol], stack, labels }
  | some (.storeToSymbol symbol false) => do
    let stack ← site.popByte index stack
    return { code := [.op .pla, .direct .sta symbol], stack, labels }
  | some (.loadToRegister register) => do
    let stack ← site.popByte index stack
    return { code := .op .pla :: register.transfer?.toList.map .op, stack, labels }
  | some (.loadFromSymbol symbol) =>
    .ok { code := [.direct .lda symbol, .op .pha], stack := callee.returns :: stack, labels }
  | some (.compileTime _) => site.execute index index labels stack
  | _ => site.callBody index labels stack callee

end Site

end Cartridge.Emit
