import MessagePattern.Arguments
import MessagePattern.Binary64
import MessagePattern.Binary64.Arithmetic
import MessagePattern.ControlText
import MessagePattern.Data
import MessagePattern.Data.Arguments
import MessagePattern.Data.Reading
import MessagePattern.Data.Values
import MessagePattern.Digits
import MessagePattern.Error
import MessagePattern.Escape
import MessagePattern.Key
import MessagePattern.Message
import MessagePattern.Numeral
import MessagePattern.Numeral.Decimal
import MessagePattern.Numeral.Exponent
import MessagePattern.Numeral.Magnitude
import MessagePattern.Numeral.Radix
import MessagePattern.Options
import MessagePattern.Placeholder
import MessagePattern.Placeholder.Pieces
import MessagePattern.Placeholder.Scan
import MessagePattern.Proofs.CanonicalKeys
import MessagePattern.Proofs.Collecting
import MessagePattern.Proofs.ControlNotations
import MessagePattern.Proofs.Conversions
import MessagePattern.Proofs.DataFaults
import MessagePattern.Proofs.DataParts
import MessagePattern.Proofs.DecimalDoubles
import MessagePattern.Proofs.DecimalNumerals
import MessagePattern.Proofs.DelimiterRuns
import MessagePattern.Proofs.DroppedSection
import MessagePattern.Proofs.EqualArguments
import MessagePattern.Proofs.EqualValues
import MessagePattern.Proofs.EqualityLaws
import MessagePattern.Proofs.EscapedPattern
import MessagePattern.Proofs.Escaping
import MessagePattern.Proofs.ExponentNumerals
import MessagePattern.Proofs.Failures
import MessagePattern.Proofs.Filling
import MessagePattern.Proofs.History
import MessagePattern.Proofs.Insertion
import MessagePattern.Proofs.IntegerKeys
import MessagePattern.Proofs.JoinedSeries
import MessagePattern.Proofs.KeyedData
import MessagePattern.Proofs.Keys
import MessagePattern.Proofs.LeftmostPlaceholders
import MessagePattern.Proofs.NumberedPlaceholders
import MessagePattern.Proofs.OffsetMessages
import MessagePattern.Proofs.OffsetPlaceholders
import MessagePattern.Proofs.OffsetSections
import MessagePattern.Proofs.Offsets
import MessagePattern.Proofs.PlaceholderGrammar
import MessagePattern.Proofs.PositionalArguments
import MessagePattern.Proofs.Positions
import MessagePattern.Proofs.RadixNumerals
import MessagePattern.Proofs.Readings
import MessagePattern.Proofs.RenderingFaults
import MessagePattern.Proofs.Rounding
import MessagePattern.Proofs.Seams
import MessagePattern.Proofs.SectionBytes
import MessagePattern.Proofs.SectionExchange
import MessagePattern.Proofs.SectionGrammar
import MessagePattern.Proofs.SectionPass
import MessagePattern.Proofs.SectionScan
import MessagePattern.Proofs.SectionSpans
import MessagePattern.Proofs.SharedData
import MessagePattern.Proofs.Splicing
import MessagePattern.Proofs.Template
import MessagePattern.Proofs.TemplateFormat
import MessagePattern.Proofs.TemplateReading
import MessagePattern.Proofs.Texts
import MessagePattern.Proofs.ValueData
import MessagePattern.Proofs.VisibleControls
import MessagePattern.Proofs.WholeDoubles
import MessagePattern.Rendering
import MessagePattern.Section
import MessagePattern.Series
import MessagePattern.Style
import MessagePattern.Value
