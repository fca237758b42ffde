import RdsJson.Runs
import RdsJson.Lib.Decimal

/-! # Values of the columns of numbers

Such a value is written as it comes, after a check of each piece. What the
checks let through, against what JSON calls a number. -/
namespace RdsJson.NumericFields
open RdsJson.Lib.LittleEndian RdsJson.Lib.Outcome RdsJson.Lib.Json RdsJson.Lib.Decimal
open RdsJson.Nginx RdsJson.Rds RdsJson.Conf RdsJson.Context RdsJson.Output RdsJson.ResultSet
open RdsJson.Render RdsJson.WriteLayer RdsJson.Generators RdsJson.FilterModule RdsJson.Runs

/-! ## Numbers and the checks -/

/-- What the checks let through, all pieces of a value together. -/
def Passes (col : Column) (v : Bytes) : Prop := col.rough = .int → intChars v = true

/-- A call of an output function. -/
abbrev Call := OutCtx → Except Fault (Int × OutCtx)

/-- Calls one after the other, the bytes they write and what they return. The first
that fails is the last. Between two of them anything may happen to the output
that leaves it ready to be written to. -/
inductive Calls (B : Nat) : List Call → Bytes → Int → Prop
  | nil : Calls B [] [] NGX_OK
  | cons {call : Call} {calls : List Call} {o o' : OutCtx} {out outs : Bytes} {rc : Int}
      (ho : Ready B o) (hcall : call o = .ok (NGX_OK, o')) (hout : pending o' = pending o ++ out)
      (hrest : Calls B calls outs rc) : Calls B (call :: calls) (out ++ outs) rc
  | stop {call : Call} {calls : List Call} {o o' : OutCtx} {rc : Int} (ho : Ready B o)
      (hcall : call o = .ok (rc, o')) (hrc : rc ≠ NGX_OK) : Calls B (call :: calls) [] rc

variable (env : Env) (r : Request) (ctx : Ctx)

variable {env r ctx} {t : Table} {fs : List Field} {col : Column}

section Answers

variable {B : Nat} {o o' : OutCtx} {bytes out : Bytes} {rc : Int} {c : Prop} [Decidable c]
variable {result : Except Fault (Int × OutCtx)}

end Answers

end RdsJson.NumericFields
