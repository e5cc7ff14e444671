namespace DiamondScript.Text

def utf8Bytes (s : String) : List UInt8 := s.toUTF8.data.toList

/-- The text that the bytes encode, if they are well-formed. -/
def ofUtf8? (bytes : List UInt8) : Option String := String.fromUTF8? ⟨bytes.toArray⟩

end DiamondScript.Text
