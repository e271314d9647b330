namespace EpochTable

structure Field where
  name : String
  text : String

def Field.render (f : Field) : String := f.name ++ ": " ++ f.text

def renderRecord (name : String) (fields : List Field) : String :=
  name ++ " \x7b " ++ ", ".intercalate (fields.map Field.render) ++ " \x7d"

def renderOpenRecord (name : String) (fields : List Field) : String :=
  name ++ " \x7b " ++ ", ".intercalate (fields.map Field.render ++ [".."]) ++ " \x7d"

end EpochTable
