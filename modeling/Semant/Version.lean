/-! The version of the library. -/

namespace Semant

def version : String := "0.1.0"

end Semant
