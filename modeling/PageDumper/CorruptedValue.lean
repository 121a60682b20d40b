import PageDumper.CompressedValue
import PageDumper.PglzExits

/-! Which corrupted compressed values `fetch_data` reports by an exception, as `user_code`
expects it, and which ones end the whole dump: those that make the decoder leave its loops
behind the end of the input with output missing, and those that make it run without an output
vector. -/
namespace PageDumper
open Memory Words Reader RowTable

end PageDumper
