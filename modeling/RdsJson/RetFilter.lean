import RdsJson.Bypass
import RdsJson.Directives
import RdsJson.ErrorObjects

/-! # What becomes of the object of `rds_json_ret`

The handler sends its buf through the filter chain, this module's filters first.
They leave it alone, unless the location takes it for a result set. -/
namespace RdsJson.RetFilter
open RdsJson.Lib.LittleEndian RdsJson.Lib.TailLoop RdsJson.Lib.Outcome RdsJson.Nginx RdsJson.Util
open RdsJson.Rds RdsJson.Conf RdsJson.Context RdsJson.Output RdsJson.Processor
open RdsJson.FilterModule RdsJson.Format RdsJson.Handler RdsJson.Render RdsJson.Simulation
open RdsJson.Turns RdsJson.Calls RdsJson.Sizes RdsJson.Blocks RdsJson.Levels RdsJson.ErrorKeys
open RdsJson.ErrorObjects RdsJson.Runs RdsJson.Directives RdsJson.Bypass

variable {env : Env} {w : World} {b : Buf}

/-- Whether the header filter takes the response of the handler for a result set. -/
def Taken (conf : LocConf) : Prop :=
  conf.enabled = some true ∧ conf.contentType.bytes = rdsContentType

/-- An error header goes out and the end of the response behind it, unless there is no
memory for them. -/
def Withheld (env : Env) (w : World) (x : Except Fault (Int × World)) : Prop :=
  ∃ w', x = .ok (NGX_ERROR, w') ∧
    (w'.trace = w.trace ∧ (∃ k, env.alloc k = false) ∨
      ∃ rest, w'.trace = w.trace ++ .header 500 :: rest ∧
        (rest = [] ∧ (∃ k, env.alloc k = false) ∨ rest = [.body [specialBuf w.r.main]]))

end RdsJson.RetFilter
