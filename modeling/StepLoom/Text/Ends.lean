/-!
# Beginnings and ends of texts
-/

namespace StepLoom.Text

def startsWith (start s : String) : Bool := start.toList.isPrefixOf s.toList

def endsWith (ending s : String) : Bool := ending.toList.isSuffixOf s.toList

end StepLoom.Text
