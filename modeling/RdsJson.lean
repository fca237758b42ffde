import RdsJson.Lib.LittleEndian
import RdsJson.Lib.TailLoop
import RdsJson.Lib.Labelled
import RdsJson.Lib.Json
import RdsJson.Lib.Decimal
import RdsJson.Lib.PrefixCode
import RdsJson.Lib.Pool
import RdsJson.Lib.Refinement
import RdsJson.Lib.Words
import RdsJson.Lib.Links
import RdsJson.FilterModule
import RdsJson.Format
import RdsJson.WriteLayer
import RdsJson.ResultSet
import RdsJson.Encoding
import RdsJson.ParserLaws
import RdsJson.Reader
import RdsJson.Cuts
import RdsJson.Render
import RdsJson.Generators
import RdsJson.Handler
import RdsJson.Sizes
import RdsJson.Levels
import RdsJson.Simulation
import RdsJson.Turns
import RdsJson.Calls
import RdsJson.Runs
import RdsJson.ParserState
import RdsJson.Soundness
import RdsJson.EndOfResponse
import RdsJson.Consumption
import RdsJson.HeaderBuf
import RdsJson.HeaderDiscipline
import RdsJson.HeaderOnly
import RdsJson.Containment
import RdsJson.Streaming
import RdsJson.SpecialBufs
import RdsJson.ParserTermination
import RdsJson.Escaping
import RdsJson.JsonText
import RdsJson.NumericFields
import RdsJson.Termination
import RdsJson.WriteRuns
import RdsJson.Ownership
import RdsJson.OwnedBufs
import RdsJson.SuccessFlag
import RdsJson.ErrorKeys
import RdsJson.ErrorObjects
import RdsJson.Directives
import RdsJson.Translator
import RdsJson.Independence
import RdsJson.Language
import RdsJson.Truncation
import RdsJson.Meaning
import RdsJson.Frame
import RdsJson.Recycling
import RdsJson.Amplification
import RdsJson.Bypass
import RdsJson.Life
import RdsJson.RetFilter
import RdsJson.Registration
import RdsJson.Blocks
